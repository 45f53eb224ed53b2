import PhpRuntime.Fpm.Moves

/-! # Process accounting over whole runs -/

namespace PhpRuntime.Fpm

open Linked

/-- The order in which `fpm_state` may change. -/
def FpmState.rank : FpmState → Nat
  | .normal => 0
  | .reloading => 1
  | .finishing => 2
  | .terminating => 3

/-- The list of a pool, read from `wp->children` along `next`. -/
def childrenOf (m : Master) (wp : Nat) : Option (List Nat) :=
  follow m.next m.allocated (m.pool wp).children

/-- The counters, the lists of children and the scoreboards agree and keep their limits, and
children were started in the normal state only. -/
structure Balanced (config : Config) (m : Master) : Prop where
  pools : ∀ wp poolConfig, config.pools[wp]? = some poolConfig →
    ∃ children, childrenOf m wp = some children ∧
      (m.pool wp).runningChildren = children.length ∧
      (m.pool wp).runningChildren ≤ poolConfig.pmMaxChildren ∧
      (∀ c ∈ children, 0 ≤ (m.child c).scoreboardI ∧
        (m.child c).scoreboardI < (m.pool wp).scoreboard.nprocs ∧
        (m.pool wp).scoreboard.used (m.child c).scoreboardI.toNat = true) ∧
      (children.map fun c => (m.child c).scoreboardI).Nodup ∧
      ((usedSlots (m.pool wp).scoreboard).length : Int) = (m.pool wp).runningChildren
  total : m.runningChildren =
    ((List.range config.pools.length).map fun wp => (m.pool wp).runningChildren).sum
  limited : 0 < config.processMax → m.runningChildren ≤ config.processMax
  forks : ∀ state ∈ m.forks, state = .normal

variable {config : Config} {allowed : Arm → Prop} {m m' : Master}

theorem Accounts.balanced {children : Nat → List Nat} (accounts : Accounts config m children) :
    Balanced config m where
  pools wp poolConfig found := by
    have pool := accounts.pools wp
    have enough : (children wp).length ≤ m.allocated := length_le_of_lt pool.nodup pool.fresh
    refine ⟨children wp, ?_, pool.running, (accounts.bounded wp poolConfig found).1, ?_,
      pool.slots.distinct, ?_⟩
    · rw [childrenOf, pool.head]
      exact follow_eq pool.segment enough
    · intro c member
      have slot := List.mem_map_of_mem (f := fun c => (m.child c).scoreboardI) member
      have inside := pool.slots.inside _ slot
      refine ⟨inside.1, inside.2, (pool.slots.used _ (by omega)).mpr ?_⟩
      rwa [Int.toNat_of_nonneg inside.1]
    · rw [pool.slots.count, List.length_map, pool.running]
  total := accounts.total
  limited := accounts.limited
  forks := accounts.forks

theorem Sound.balanced (sound : Sound config m) : Balanced config m := by
  rcases sound.accounts with ⟨children, accounts⟩
  exact accounts.balanced

/-! ### The state of the master -/

theorem rank_le_of_overridable {state newState : FpmState}
    (raises : overridable state newState = true) : state.rank ≤ newState.rank := by
  cases state <;> cases newState <;> simp_all [overridable, FpmState.rank]

theorem Move.rank_le (move : Move config allowed m m') (sound : Sound config m) :
    m.fpmState.rank ≤ m'.fpmState.rank := by
  cases move with
  | started _ _ _ _ _ _ _ => exact Nat.le_refl _
  | buried _ _ => exact Nat.le_refl _
  | @armed _ arm state signal sec _ raises sets =>
      rcases sound.timers with ⟨elts, isQueue⟩
      have withState : Queue
          { m with fpmState := state, fpmSignalSent := some signal }.timer elts := isQueue
      rcases timeoutSet_spec withState sec arm with ⟨queue, _, data, result, _⟩
      cases sets.symm.trans result
      rcases raises with same | raises
      · exact Nat.le_of_eq (congrArg _ same.symm)
      · exact rank_le_of_overridable raises
  | raised state raises _ => exact rank_le_of_overridable raises
  | touched _ same _ => exact Nat.le_of_eq (congrArg _ same.symm)

theorem Moves.rank_le (moves : Moves config allowed m m') (sound : Sound config m) :
    m.fpmState.rank ≤ m'.fpmState.rank := by
  induction moves with
  | refl => exact Nat.le_refl _
  | tail earlier move induction =>
      exact Nat.le_trans induction (move.rank_le (Moves.sound earlier sound))

/-! ### Runs -/

theorem fpmInit_sound (inits : fpmInit config = some m) : Sound config m := by
  simp only [fpmInit, Option.ite_none_right_eq_some, Option.some.injEq] at inits
  rcases inits with ⟨startable, rfl⟩
  rw [List.all_eq_true] at startable
  refine ⟨⟨fun _ => [], ?_⟩, ⟨[], queue_empty⟩⟩
  constructor
  · intro wp
    exact {
      segment := trivial
      head := rfl
      nodup := List.nodup_nil
      owner := by simp
      fresh := by simp
      running := rfl
      slots := ⟨by simp, List.nodup_nil, by simp⟩ }
  · intro wp poolConfig found
    have positive := startable poolConfig (List.mem_of_getElem? found)
    rw [decide_eq_true_eq] at positive
    refine ⟨?_, by simp [found]⟩
    change (0 : Int) ≤ _
    omega
  · exact fun _ _ => rfl
  · simp
  · intro positive
    exact Int.le_of_lt positive
  · simp

theorem createInitial_handles (arm : Arm) (spawn : Nat → Nat → Spawn) (isAllowed : allowed arm)
    (startable : ∀ poolConfig ∈ config.pools,
      poolConfig.pmStartServers ≤ poolConfig.pmMaxChildren) (pools : List PoolConfig) :
    ∀ {wp : Nat} {m : Master}, config.pools.drop wp = pools → Sound config m →
      Handles config allowed m (createInitial config arm spawn wp pools m) := by
  induction pools with
  | nil => exact fun _ _ => handles_same
  | cons poolConfig pools induction =>
      intro wp m rest sound
      have found : config.pools[wp]? = some poolConfig := by
        rw [← Nat.add_zero wp, ← List.getElem?_drop, rest]
        rfl
      have restNext : config.pools.drop (wp + 1) = pools := by
        rw [← List.drop_drop, rest]
        rfl
      unfold createInitial
      split
      · exact induction restNext sound
      · next notOndemand =>
        have within : makeMax poolConfig (m.pool wp) false 0 ≤ poolConfig.pmMaxChildren := by
          unfold makeMax
          split
          · exact startable poolConfig (List.mem_of_getElem? found)
          · next isOndemand => exact absurd isOndemand notOndemand
          · exact Int.le_refl _
        rcases childrenMake_moves found false 0 (spawn wp) within with ⟨m₁, code, makes, moves⟩
        rw [makes]
        change Handles config allowed m (if code = 2 then _ else _)
        split
        · exact (pctlSet_controls (Moves.sound moves sound) isAllowed .terminating).handles.after
            moves
        · exact (induction restNext (Moves.sound moves sound)).after moves

theorem runHandlers_handles (handlers : List Handler) :
    ∀ {m : Master}, Sound config m → (∀ handler ∈ handlers, ∀ arm ∈ handler.arms, allowed arm) →
      Handles config allowed m (runHandlers config m handlers) := by
  induction handlers with
  | nil => exact fun _ _ => handles_same
  | cons handler handlers induction =>
      intro m sound areAllowed
      apply (handle_handles sound handler (areAllowed handler List.mem_cons_self)).bind
      intro m₁ moves
      exact induction (Moves.sound moves sound) fun other member =>
        areAllowed other (List.mem_cons_of_mem _ member)

theorem fpmRun_handles (inits : fpmInit config = some m) (arm : Arm) (spawn : Nat → Nat → Spawn)
    (startable : ∀ poolConfig ∈ config.pools,
      poolConfig.pmStartServers ≤ poolConfig.pmMaxChildren) (handlers : List Handler) :
    Handles config (fun _ => True) m (fpmRun config m arm spawn handlers) := by
  have sound := fpmInit_sound inits
  apply (createInitial_handles arm spawn trivial startable config.pools rfl sound).bind
  intro m₁ moves
  exact runHandlers_handles handlers (Moves.sound moves sound) fun _ _ _ _ => trivial

/-- Whatever the order of the callbacks and whatever they meet: the accounts of the master
agree, it ends only without children, and its state only moves forward. -/
theorem fpmRun_balanced (config : Config) (startable : ∀ poolConfig ∈ config.pools,
      poolConfig.pmStartServers ≤ poolConfig.pmMaxChildren) (m : Master)
    (inits : fpmInit config = some m) (arm : Arm) (spawn : Nat → Nat → Spawn)
    (handlers : List Handler) :
    Ends (fpmRun config m arm spawn handlers) (Balanced config)
      (fun stopped => Balanced config stopped ∧ stopped.runningChildren = 0) ∧
    ∀ reached, fpmRun config m arm spawn handlers = .ok reached → ∀ handler,
      Ends (handle config reached handler)
        (fun next => reached.fpmState.rank ≤ next.fpmState.rank)
        (fun stopped => reached.fpmState.rank ≤ stopped.fpmState.rank) := by
  have sound := fpmInit_sound inits
  have handles := fpmRun_handles inits arm spawn startable handlers
  constructor
  · exact Ends.mono handles (fun _ moves => (Moves.sound moves sound).balanced)
      fun _ stopped => ⟨(Moves.sound stopped.1 sound).balanced, stopped.2⟩
  · intro reached runs handler
    rw [runs] at handles
    have soundReached := Moves.sound handles sound
    have next : Handles config (fun _ => True) reached (handle config reached handler) :=
      handle_handles soundReached handler fun _ _ => trivial
    exact Ends.mono next (fun _ moves => Moves.rank_le moves soundReached)
      fun _ stopped => Moves.rank_le stopped.1 soundReached

/-- One pool with at most two children, one of them at the start. -/
def smallConfig : Config where
  processMax := 0
  processControlTimeout := 10
  emergencyRestartThreshold := 0
  emergencyRestartInterval := 0
  pools := [{
    pm := .dynamic
    pmMaxChildren := 2
    pmStartServers := 1
    pmMinSpareServers := 1
    pmMaxSpareServers := 2
    pmProcessIdleTimeout := 10 }]

theorem fpmRun_balanced_small :
    ∃ m, fpmInit smallConfig = some m ∧
      Ends (fpmRun smallConfig m ⟨0, true⟩ (fun _ round => .forked (100 + round) 0)
          [.idleMaintenance ⟨fun _ => false, fun _ => 0, 0, fun _ _ => .forked 102 1⟩,
            .sigchld [⟨100, .signaled 11, 5, ⟨0, true⟩, fun _ => .forkFailed⟩],
            .sigusr2 ⟨5, true⟩, .sigchld [⟨102, .exited 0, 6, ⟨0, true⟩, fun _ => .noMemory⟩]])
        (Balanced smallConfig)
        (fun stopped => Balanced smallConfig stopped ∧ stopped.runningChildren = 0) :=
  ⟨_, rfl, (fpmRun_balanced smallConfig (by decide) _ rfl _ _ _).1⟩

end PhpRuntime.Fpm
