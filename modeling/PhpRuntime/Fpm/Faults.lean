import PhpRuntime.Fpm.Master
import Mathlib.Data.Nat.ModEq

/-! # Emergency restarts

`last_faults` is a ring of `emergency_restart_threshold` times, and fault number `k` is kept in
slot `k % emergency_restart_threshold`. The slots that have not been written hold 0, and the
test reads them as faults at time 0.
-/

namespace PhpRuntime.Fpm

open Function

/-- The test that makes `fpm_children_bury` call `fpm_pctl` with `FPM_PCTL_STATE_RELOADING`. -/
def initiatesReload (config : Config) (m : Master) (wait : Wait) : Bool :=
  match m.lastFaults with
  | none => false
  | some faults => wait.status.isFault && (recordFault config m faults wait.now).2

/-- A master and the times of the faults it has recorded. No other function writes
`last_faults` or `fault`. -/
inductive History (config : Config) : Master → List Int → Prop
  | start {m : Master} (init : fpmInit config = some m) : History config m []
  | other {m after : Master} {times : List Int} (history : History config m times)
      (faults : after.lastFaults = m.lastFaults) (index : after.fault = m.fault) :
      History config after times
  | fault {m : Master} {faults : Nat → Int} {times : List Int} (now : Int)
      (history : History config m times) (allocated : m.lastFaults = some faults) :
      History config (recordFault config m faults now).1 (times ++ [now])

/-- At least `threshold` faults, the last `threshold` of them within `interval` of `now`. -/
def Due (threshold : Nat) (interval : Int) (times : List Int) (now : Int) : Prop :=
  threshold ≤ times.length ∧
    ∀ time ∈ times[times.length - threshold]?, now - time ≤ interval

/-! ## The ring -/

/-- The faults of the last round are in their slots, and the slots of no fault hold 0. -/
structure Ring (threshold : Nat) (times : List Int) (faults : Nat → Int) : Prop where
  kept : ∀ k time, times[k]? = some time → times.length ≤ k + threshold →
    faults (k % threshold) = time
  unwritten : ∀ slot, times.length ≤ slot → faults slot = 0

theorem succ_mod {n threshold : Nat} (positive : 0 < threshold) :
    (n + 1) % threshold = if n % threshold + 1 = threshold then 0 else n % threshold + 1 := by
  have small := Nat.mod_lt n positive
  rw [Nat.add_mod]
  split
  · rename_i full
    rw [← Nat.add_mod, ← Nat.mod_add_mod, full, Nat.mod_self]
  · rw [← Nat.add_mod, ← Nat.mod_add_mod, Nat.mod_eq_of_lt (by omega)]

/-- Slots of one round are distinct. -/
theorem mod_ne {k n threshold : Nat} (before : k < n) (near : n < k + threshold) :
    k % threshold ≠ n % threshold := by
  intro equal
  have multiple : threshold ∣ n - k := (Nat.modEq_iff_dvd' (by omega)).mp equal
  have large := Nat.le_of_dvd (by omega) multiple
  omega

/-- Each slot belongs to a fault of a round. -/
theorem exists_mod {slot threshold : Nat} (low : Nat) (inside : slot < threshold) :
    ∃ k, low ≤ k ∧ k < low + threshold ∧ k % threshold = slot := by
  by_cases first : low ≤ slot
  · exact ⟨slot, first, by omega, Nat.mod_eq_of_lt inside⟩
  · have division := Nat.div_add_mod (low - slot + (threshold - 1)) threshold
    have remainder := Nat.mod_lt (low - slot + (threshold - 1)) (show 0 < threshold by omega)
    refine ⟨slot + threshold * ((low - slot + (threshold - 1)) / threshold), by omega, by omega, ?_⟩
    rw [Nat.add_mul_mod_self_left, Nat.mod_eq_of_lt inside]

theorem Ring.record {threshold : Nat} {times : List Int} {faults : Nat → Int}
    (ring : Ring threshold times faults) (now : Int) :
    Ring threshold (times ++ [now]) (update faults (times.length % threshold) now) where
  kept := by
    intro k time found near
    rw [List.length_append, List.length_singleton] at near
    by_cases old : k < times.length
    · rw [update_of_ne (mod_ne old (by omega))]
      rw [List.getElem?_append_left old] at found
      exact ring.kept k time found (by omega)
    · rw [List.getElem?_append_right (by omega)] at found
      have last : k - times.length = 0 := by
        have inside := (List.getElem?_eq_some_iff.mp found).1
        rw [List.length_singleton] at inside
        omega
      rw [last] at found
      cases found
      rw [show k = times.length by omega, update_self]
  unwritten := by
    intro slot beyond
    rw [List.length_append, List.length_singleton] at beyond
    have small := Nat.mod_le times.length threshold
    rw [update_of_ne (by omega)]
    exact ring.unwritten slot (by omega)

variable {config : Config} {m : Master} {times : List Int}

theorem History.ring (history : History config m times)
    (threshold : 0 < config.emergencyRestartThreshold)
    (interval : config.emergencyRestartInterval ≠ 0) :
    ∃ faults, m.lastFaults = some faults ∧
      Ring config.emergencyRestartThreshold times faults ∧
      m.fault = times.length % config.emergencyRestartThreshold := by
  induction history with
  | start init =>
      unfold fpmInit at init
      split at init
      · cases init
        dsimp only
        rw [if_pos ⟨by omega, interval⟩]
        exact ⟨_, rfl, ⟨by simp, by simp⟩, (Nat.zero_mod _).symm⟩
      · cases init
  | other history faults index induction => rw [faults, index]; exact induction
  | fault now history allocated induction =>
      obtain ⟨faults, found, ring, index⟩ := induction
      cases allocated.symm.trans found
      refine ⟨_, rfl, ?_, ?_⟩
      · rw [index]
        exact ring.record now
      · dsimp only [recordFault]
        rw [List.length_append, List.length_singleton, succ_mod threshold, index]

/-! ## The test -/

/-- All slots are near `now` exactly if the faults of the last round are, and `now` itself
when the ring is not full. -/
theorem Ring.all_near_iff {threshold : Nat} {faults : Nat → Int}
    (ring : Ring threshold times faults) (interval now : Int) (positive : 0 < threshold)
    (ordered : times.Pairwise (· ≤ ·)) (nonneg : ∀ time ∈ times, 0 ≤ time) :
    (∀ slot < threshold, now - faults slot ≤ interval) ↔
      if threshold ≤ times.length then Due threshold interval times now
      else now ≤ interval := by
  split
  · rename_i full
    have inside : times.length - threshold < times.length := by omega
    have oldest : ∀ k time, times[k]? = some time → times.length - threshold ≤ k →
        times[times.length - threshold] ≤ time := by
      intro k time found late
      obtain ⟨bound, rfl⟩ := List.getElem?_eq_some_iff.mp found
      rcases Nat.eq_or_lt_of_le late with same | later
      · simp only [same, le_refl]
      · exact List.pairwise_iff_getElem.mp ordered _ _ inside bound later
    rw [Due, List.getElem?_eq_getElem inside]
    constructor
    · intro near
      refine ⟨full, ?_⟩
      intro time isOldest
      cases isOldest
      have slot := ring.kept _ _ (List.getElem?_eq_getElem inside) (by omega)
      rw [← slot]
      exact near _ (Nat.mod_lt _ positive)
    · intro due slot bound
      obtain ⟨k, late, early, isSlot⟩ := exists_mod (times.length - threshold) bound
      have found := List.getElem?_eq_getElem (show k < times.length by omega)
      rw [← isSlot, ring.kept k _ found (by omega)]
      have first := due.2 _ rfl
      have later := oldest k _ found late
      omega
  · rename_i short
    constructor
    · intro near
      have unwritten := near times.length (by omega)
      rw [ring.unwritten _ le_rfl] at unwritten
      omega
    · intro early slot bound
      by_cases written : slot < times.length
      · have found := List.getElem?_eq_getElem written
        have value := ring.kept slot _ found (by omega)
        rw [Nat.mod_eq_of_lt bound] at value
        have positive := nonneg _ (List.getElem_mem written)
        omega
      · rw [ring.unwritten slot (by omega)]
        omega

/-- A fault initiates a reload as it should, exactly if enough faults are recorded or the
clock is past the interval. -/
theorem initiatesReload_due_iff (config : Config) (m : Master) (times : List Int) (wait : Wait)
    (threshold : 0 < config.emergencyRestartThreshold)
    (interval : 0 < config.emergencyRestartInterval) (history : History config m times)
    (ordered : (times ++ [wait.now]).Pairwise (· ≤ ·))
    (nonneg : ∀ time ∈ times ++ [wait.now], 0 ≤ time) (isFault : wait.status.isFault = true) :
    (initiatesReload config m wait = true ↔
        Due config.emergencyRestartThreshold config.emergencyRestartInterval
          (times ++ [wait.now]) wait.now) ↔
      config.emergencyRestartThreshold ≤ times.length + 1 ∨
        config.emergencyRestartInterval < wait.now := by
  obtain ⟨faults, allocated, ring, index⟩ := history.ring threshold (by omega)
  have near := (ring.record wait.now).all_near_iff config.emergencyRestartInterval wait.now
    threshold ordered nonneg
  have test : initiatesReload config m wait = true ↔
      ∀ slot < config.emergencyRestartThreshold,
        wait.now - update faults (times.length % config.emergencyRestartThreshold) wait.now slot ≤
          config.emergencyRestartInterval := by
    simp [initiatesReload, allocated, isFault, recordFault, index]
  rw [test, near, List.length_append, List.length_singleton]
  split
  · rename_i full
    simp [full]
  · rename_i short
    simp only [Due, List.length_append, List.length_singleton, short, false_and, iff_false,
      false_or, not_le]

/-! ## The burial of children -/

section Burial

variable {m' : Master} {wait : Wait}

theorem bind_eq_ok {α β : Type} {first : Run α} {rest : α → Run β} {result : β}
    (runs : first >>= rest = .ok result) : ∃ value, first = .ok value ∧ rest value = .ok result := by
  cases first with
  | error stop => cases runs
  | ok value => exact ⟨value, rfl, runs⟩

/-- What the emergency restart looks at. -/
def Master.faultState (m : Master) : FpmState × Option (Nat → Int) × Nat :=
  (m.fpmState, m.lastFaults, m.fault)

theorem faultState_forkChild (m : Master) (wp : Nat) (spawn : Spawn) :
    (forkChild m wp spawn).1.faultState = m.faultState := by
  cases spawn with
  | noMemory | noPipes => rfl
  | forkFailed | forked =>
      rw [forkChild]
      split
      · rfl
      · rename_i after prepares
        rcases Option.map_eq_some_iff.mp prepares with ⟨slot, _, rfl⟩
        rfl

theorem faultState_childrenMake {wp : Nat} {max : Int} {spawn : Nat → Spawn} {fuel round : Nat}
    {made : Master × Nat} (runs : childrenMakeLoop config wp max spawn fuel round m = .ok made) :
    made.1.faultState = m.faultState := by
  induction fuel generalizing m round with
  | zero =>
      rw [childrenMakeLoop] at runs
      split at runs
      · cases runs
      · cases runs
        rfl
  | succ fuel induction =>
      have forked := faultState_forkChild m wp (spawn round)
      rw [childrenMakeLoop] at runs
      split at runs
      · generalize forkChild m wp (spawn round) = result at forked runs
        dsimp only at runs
        split at runs
        · exact (induction runs).trans forked
        · cases runs
          exact forked
      · cases runs
        rfl

theorem faultState_timeoutSet {sec : Nat} {arm : Arm}
    (runs : fpmPctlTimeoutSet m sec arm = .ok m') : m'.faultState = m.faultState := by
  rw [fpmPctlTimeoutSet, fpmEventAdd] at runs
  rcases bind_eq_ok runs with ⟨queue, _, runs⟩
  cases runs
  rfl

/-- A reload that returns has set the state, if it was the normal one. -/
theorem reload_returns {arm : Arm} (runs : fpmPctl config arm m (.set .reloading) = .ok m') :
    m'.faultState.2 = m.faultState.2 ∧ (m.fpmState = .normal → m'.fpmState = .reloading) := by
  rw [fpmPctl] at runs
  split_ifs at runs with already overrides
  · cases runs
    exact ⟨rfl, fun _ => already⟩
  · rw [fpmPctlActionNext] at runs
    split at runs
    · cases runs
    · have same := faultState_timeoutSet runs
      exact ⟨(congrArg Prod.snd same :), fun _ => (congrArg Prod.fst same :)⟩
  · cases runs
    exact ⟨rfl, fun isNormal => absurd (isNormal ▸ rfl) overrides⟩

theorem childExited_returns {arm : Arm} (runs : fpmPctlChildExited config arm m = .ok m') :
    m' = m := by
  rw [fpmPctlChildExited] at runs
  split_ifs at runs with isNormal last
  · exact (Except.ok.inj runs).symm
  · rw [fpmPctl, fpmPctlActionLast] at runs
    split at runs <;> cases runs
    rfl
  · exact (Except.ok.inj runs).symm

/-- The faults are looked at between two parts that leave them as they are. -/
theorem buryChild_returns {c : Nat} (runs : buryChild config m c wait = .ok m') :
    ∃ exited checked, exited.faultState = m.faultState ∧
      checkFaults config exited wait = .ok checked ∧ m'.faultState = checked.faultState := by
  rw [buryChild] at runs
  rcases bind_eq_ok runs with ⟨exited, exits, runs⟩
  rcases bind_eq_ok runs with ⟨checked, checks, runs⟩
  refine ⟨exited, checked, by rw [childExited_returns exits]; rfl, checks, ?_⟩
  split at runs
  · rcases bind_eq_ok runs with ⟨made, makes, runs⟩
    cases runs
    exact faultState_childrenMake makes
  · cases runs
    rfl

/-- Faults at some of the times have been recorded, in this order, and nothing else. -/
def Recorded (config : Config) (m m' : Master) (among : List Int) : Prop :=
  ∀ times, History config m times →
    ∃ more, more.Sublist among ∧ History config m' (times ++ more)

theorem Recorded.of_same (same : m'.faultState.2 = m.faultState.2) (among : List Int) :
    Recorded config m m' among := by
  intro times history
  refine ⟨[], List.nil_sublist _, ?_⟩
  rw [List.append_nil]
  exact .other history (congrArg Prod.fst same) (congrArg Prod.snd same)

theorem Recorded.append {m'' : Master} {first second : List Int}
    (before : Recorded config m m' first) (after : Recorded config m' m'' second) :
    Recorded config m m'' (first ++ second) := by
  intro times history
  rcases before times history with ⟨more, among, recorded⟩
  rcases after _ recorded with ⟨later, amongLater, recordedLater⟩
  exact ⟨more ++ later, among.append amongLater, by rwa [← List.append_assoc]⟩

/-- The time of a fault. -/
def Wait.faults (wait : Wait) : List Int := if wait.status.isFault then [wait.now] else []

theorem checkFaults_returns (runs : checkFaults config m wait = .ok m') :
    Recorded config m m' wait.faults ∧ (m.fpmState = .normal →
      (m'.fpmState = .reloading ↔ initiatesReload config m wait = true)) := by
  rw [checkFaults] at runs
  cases allocated : m.lastFaults with
  | none =>
      rw [allocated] at runs
      cases runs
      exact ⟨.of_same rfl _, fun isNormal => by simp [initiatesReload, allocated, isNormal]⟩
  | some faults =>
      rw [allocated] at runs
      dsimp only at runs
      by_cases isFault : wait.status.isFault = true
      · have recorded : Recorded config m (recordFault config m faults wait.now).1 wait.faults := by
          intro times history
          rw [Wait.faults, if_pos isFault]
          exact ⟨_, .refl _, .fault wait.now history allocated⟩
        rw [if_pos isFault] at runs
        rw [initiatesReload, allocated]
        dsimp only
        rw [isFault, Bool.true_and]
        split_ifs at runs with restarts
        · rcases reload_returns runs with ⟨same, reloads⟩
          have both := recorded.append (.of_same same [])
          rw [List.append_nil] at both
          exact ⟨both, fun isNormal => iff_of_true (reloads isNormal) restarts⟩
        · cases runs
          refine ⟨recorded, fun isNormal => iff_of_false ?_ restarts⟩
          change m.fpmState ≠ .reloading
          rw [isNormal]
          decide
      · rw [if_neg isFault] at runs
        cases runs
        exact ⟨.of_same rfl _, fun isNormal => by
          simp [initiatesReload, allocated, isNormal, isFault]⟩

/-- A burial that returns has started a reload exactly if the test says so. -/
theorem buryChild_reloads_iff {c : Nat} (isNormal : m.fpmState = .normal)
    (runs : buryChild config m c wait = .ok m') :
    m'.fpmState = .reloading ↔ initiatesReload config m wait = true := by
  rcases buryChild_returns runs with ⟨exited, checked, before, checks, after⟩
  simp only [Master.faultState, Prod.mk.injEq] at before after
  rw [after.1, (checkFaults_returns checks).2 (before.1.trans isNormal)]
  simp only [initiatesReload, recordFault, before.2]

/-- Burying children records faults among their ends. -/
theorem fpmChildrenBury_records {waits : List Wait}
    (runs : fpmChildrenBury config m waits = .ok m') :
    Recorded config m m' (waits.flatMap Wait.faults) := by
  induction waits generalizing m with
  | nil =>
      cases runs
      exact .of_same rfl _
  | cons wait waits induction =>
      rw [fpmChildrenBury] at runs
      rcases bind_eq_ok runs with ⟨buried, buries, runs⟩
      rw [List.flatMap_cons]
      refine Recorded.append ?_ (induction runs)
      rw [buryOne] at buries
      rcases bind_eq_ok buries with ⟨found, _, buries⟩
      split at buries
      · cases buries
        exact .of_same rfl _
      · cases buries
        exact .of_same rfl _
      · rcases buryChild_returns buries with ⟨exited, checked, before, checks, after⟩
        have checking := (checkFaults_returns checks).1.append
          (.of_same (congrArg Prod.snd after) [])
        rw [List.append_nil] at checking
        exact Recorded.append (.of_same (congrArg Prod.snd before) []) checking

end Burial

/-- The second of two faults, an hour behind the start of the clock. -/
theorem initiatesReload_second_fault :
    ∃ m faults, fpmInit ⟨0, 0, 2, 60, []⟩ = some m ∧ m.lastFaults = some faults ∧
      initiatesReload ⟨0, 0, 2, 60, []⟩ (recordFault ⟨0, 0, 2, 60, []⟩ m faults 3600).1
        ⟨1, .signaled 11, 3610, ⟨0, true⟩, fun _ => .noMemory⟩ = true := by
  refine ⟨_, _, rfl, rfl, ?_⟩
  have holds := initiatesReload_due_iff ⟨0, 0, 2, 60, []⟩ _ ([] ++ [3600])
    ⟨1, .signaled 11, 3610, ⟨0, true⟩, fun _ => .noMemory⟩ (by decide) (by decide)
    (.fault 3600 (.start rfl) rfl) (by decide) (by decide) (by decide)
  apply (holds.mpr (.inl (by decide))).mpr
  exact ⟨by decide, by simp⟩

/-- The first of ten faults, five seconds behind the start of the clock. -/
theorem initiatesReload_early_clock :
    ∃ m, fpmInit ⟨0, 0, 10, 60, []⟩ = some m ∧
      initiatesReload ⟨0, 0, 10, 60, []⟩ m
        ⟨1, .signaled 11, 5, ⟨0, true⟩, fun _ => .noMemory⟩ = true ∧
      ¬ Due 10 60 [5] 5 := by
  refine ⟨_, rfl, by decide, ?_⟩
  intro due
  exact absurd due.1 (by decide)

end PhpRuntime.Fpm
