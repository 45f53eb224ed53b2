import PhpRuntime.Fpm.Accounts
import PhpRuntime.Fpm.Timers

/-! # What the callbacks can do

Every callback is a sequence of a few kinds of moves. What holds of the master over whole
runs is proved for the moves.
-/

namespace PhpRuntime.Fpm

open Function Linked Relation

/-! ### Results -/

/-- The run returns a value of the first kind or ends the process in a state of the second. -/
def Ends (run : Run α) (returns : α → Prop) (stops : Master → Prop) : Prop :=
  match run with
  | .ok value => returns value
  | .error (.exit m) | .error (.exec m) => stops m
  | .error .stuck => False

theorem Ends.bind {run : Run α} {next : α → Run β} {returns : α → Prop} {returns' : β → Prop}
    {stops : Master → Prop} (first : Ends run returns stops)
    (second : ∀ value, returns value → Ends (next value) returns' stops) :
    Ends (run >>= next) returns' stops := by
  match run with
  | .ok value => exact second value first
  | .error (.exit m) | .error (.exec m) => exact first

theorem Ends.mono {run : Run α} {returns returns' : α → Prop} {stops stops' : Master → Prop}
    (ends : Ends run returns stops) (weaker : ∀ value, returns value → returns' value)
    (weakerStop : ∀ m, stops m → stops' m) : Ends run returns' stops' := by
  match run with
  | .ok value => exact weaker value ends
  | .error (.exit m) | .error (.exec m) => exact weakerStop m ends

/-! ### Moves -/

/-- `allowed` says what the clock and `malloc` may answer. -/
inductive Move (config : Config) (allowed : Arm → Prop) : Master → Master → Prop
  | started {m : Master} {wp slot : Nat} {poolConfig : PoolConfig} {scoreboard : Scoreboard}
      (pid : Int) (started : Nat) :
      config.pools[wp]? = some poolConfig → m.fpmState = .normal →
      (m.pool wp).runningChildren < poolConfig.pmMaxChildren →
      config.processMax < 1 ∨ m.runningChildren < config.processMax →
      procAlloc (m.pool wp).scoreboard = some (scoreboard, slot) →
      Move config allowed m (startedChild m wp scoreboard slot pid started)
  | buried {m : Master} {children : Nat → List Nat} {wp c : Nat} :
      Accounts config m children → c ∈ children wp → Move config allowed m (buriedChild m c)
  | armed {m m' : Master} {arm : Arm} (state : FpmState) (signal : Signal) (sec : Nat) :
      allowed arm → state = m.fpmState ∨ overridable m.fpmState state = true →
      fpmPctlTimeoutSet { m with fpmState := state, fpmSignalSent := some signal } sec arm =
        .ok m' →
      Move config allowed m m'
  | raised {m : Master} (state : FpmState) :
      overridable m.fpmState state = true → m.runningChildren = 0 →
      Move config allowed m { m with fpmSignalSent := none, fpmState := state }
  | touched {m m' : Master} :
      SameAccounts m m' → m'.fpmState = m.fpmState → m'.timer = m.timer →
      Move config allowed m m'

abbrev Moves (config : Config) (allowed : Arm → Prop) : Master → Master → Prop :=
  ReflTransGen (Move config allowed)

/-- What the callbacks rely on. -/
structure Sound (config : Config) (m : Master) : Prop where
  accounts : ∃ children, Accounts config m children
  timers : ∃ elts, Queue m.timer elts

variable {config : Config} {allowed : Arm → Prop} {m m' : Master} {arm : Arm}

theorem sameAccounts_timer (m : Master) (state : FpmState) (signal : Option Signal)
    (event : TimerEvent → TimerData) (queue : EventQueue) :
    SameAccounts m { m with
      fpmState := state, fpmSignalSent := signal, event := event, timer := queue } :=
  { SameAccounts.refl m with }

/-- `fpm_pctl_timeout_set` queues the event, or the event was queued before. -/
theorem timeoutSet_spec {elts : List Nat} (isQueue : Queue m.timer elts) (sec : Nat) (arm : Arm) :
    ∃ queue elts' data, fpmPctlTimeoutSet m sec arm =
        .ok { m with event := update m.event .pctlEvent data, timer := queue } ∧
      Queue queue elts' ∧
      elts'.map queue.ev =
        (if .pctlEvent ∈ elts.map m.timer.ev ∨ arm.memory = false then [] else [.pctlEvent]) ++
          elts.map m.timer.ev ∧
      (∀ elt ∈ elts, queue.ev elt = m.timer.ev elt) ∧ ∃ front, elts' = front ++ elts := by
  rcases isQueue.add .pctlEvent arm.memory with ⟨queue, elts', adds, isQueue', events⟩
  let data : TimerData :=
    { persist := false
      timeout := arm.now + Integers.sizeT (Integers.int (sec * 1000)) * 1000
      frequency := Integers.sizeT (Integers.int (sec * 1000)) * 1000 }
  refine ⟨queue, elts', data, ?_, isQueue', events⟩
  simp only [fpmPctlTimeoutSet, fpmEventAdd, fpmEventSetTimer, adds, bind, Except.bind, pure,
    Except.pure, update_idem, update_self]
  rfl

theorem Move.sound (move : Move config allowed m m') (sound : Sound config m) :
    Sound config m' := by
  rcases sound.accounts with ⟨children, accounts⟩
  rcases sound.timers with ⟨elts, isQueue⟩
  cases move with
  | started pid started found isNormal below allowedCount allocates =>
      exact ⟨⟨_, accounts.start found isNormal below allowedCount allocates pid started⟩,
        ⟨elts, isQueue⟩⟩
  | buried otherAccounts member => exact ⟨⟨_, otherAccounts.bury member⟩, ⟨elts, isQueue⟩⟩
  | @armed _ arm state signal sec _ _ sets =>
      have withState : Queue
          { m with fpmState := state, fpmSignalSent := some signal }.timer elts := isQueue
      rcases timeoutSet_spec withState sec arm with ⟨queue, elts', data, result, isQueue', _⟩
      cases sets.symm.trans result
      exact ⟨⟨children, accounts.transfer (sameAccounts_timer m _ _ _ _)⟩, ⟨elts', isQueue'⟩⟩
  | raised state _ _ =>
      exact ⟨⟨children, accounts.transfer (sameAccounts_timer m state none m.event m.timer)⟩,
        ⟨elts, isQueue⟩⟩
  | touched same _ timer =>
      exact ⟨⟨children, accounts.transfer same⟩, ⟨elts, timer ▸ isQueue⟩⟩

theorem Moves.sound (moves : Moves config allowed m m') (sound : Sound config m) :
    Sound config m' := by
  induction moves with
  | refl => exact sound
  | tail _ move induction => exact move.sound induction

theorem Move.mono {wider : Arm → Prop} (move : Move config allowed m m')
    (weaker : ∀ arm, allowed arm → wider arm) : Move config wider m m' := by
  cases move with
  | started pid started found isNormal below allowedCount allocates =>
      exact .started pid started found isNormal below allowedCount allocates
  | buried accounts member => exact .buried accounts member
  | armed state signal sec isAllowed raises sets =>
      exact .armed state signal sec (weaker _ isAllowed) raises sets
  | raised state raises alone => exact .raised state raises alone
  | touched same state timer => exact .touched same state timer

theorem Moves.mono {wider : Arm → Prop} (moves : Moves config allowed m m')
    (weaker : ∀ arm, allowed arm → wider arm) : Moves config wider m m' := by
  induction moves with
  | refl => exact ReflTransGen.refl
  | tail _ move induction => exact induction.tail (move.mono weaker)

/-- The callback `run` started in `m` only makes moves, and the process ends only without
children. -/
def Handles (config : Config) (allowed : Arm → Prop) (m : Master) (run : Run Master) : Prop :=
  Ends run (Moves config allowed m)
    fun m' => Moves config allowed m m' ∧ m'.runningChildren = 0

theorem handles_same : Handles config allowed m (.ok m) := ReflTransGen.refl

/-- A callback that starts after some moves. -/
theorem Handles.after {m₁ : Master} {run : Run Master} (handles : Handles config allowed m₁ run)
    (moves : Moves config allowed m m₁) : Handles config allowed m run :=
  Ends.mono handles (fun _ later => moves.trans later)
    fun _ stopped => ⟨moves.trans stopped.1, stopped.2⟩

theorem Handles.bind {run : Run Master} {next : Master → Run Master}
    (handles : Handles config allowed m run)
    (second : ∀ m₁, Moves config allowed m m₁ → Handles config allowed m₁ (next m₁)) :
    Handles config allowed m (run >>= next) :=
  Ends.bind handles fun m₁ moves => (second m₁ moves).after moves

/-! ### Process control -/

/-- As `Handles`, for what leaves the pools alone. -/
def Controls (config : Config) (allowed : Arm → Prop) (m : Master) (run : Run Master) : Prop :=
  Ends run (fun m' => Moves config allowed m m' ∧ m'.pool = m.pool)
    fun m' => Moves config allowed m m' ∧ m'.runningChildren = 0

theorem controls_same : Controls config allowed m (.ok m) := ⟨ReflTransGen.refl, rfl⟩

theorem Controls.after {m₁ : Master} {run : Run Master} (controls : Controls config allowed m₁ run)
    (moves : Moves config allowed m m₁) (pools : m₁.pool = m.pool) :
    Controls config allowed m run :=
  Ends.mono controls (fun _ later => ⟨moves.trans later.1, later.2.trans pools⟩)
    fun _ stopped => ⟨moves.trans stopped.1, stopped.2⟩

theorem Controls.handles {run : Run Master} (controls : Controls config allowed m run) :
    Handles config allowed m run :=
  Ends.mono controls (fun _ returned => returned.1) fun _ => id

theorem signalNext_controls (sound : Sound config m) (state : FpmState) (sent : Option Signal)
    (isAllowed : allowed arm)
    (raises : state = m.fpmState ∨ overridable m.fpmState state = true) :
    Controls config allowed m
      (fpmPctlSignalNext config arm { m with fpmSignalSent := sent, fpmState := state }) := by
  rcases sound.timers with ⟨elts, isQueue⟩
  unfold fpmPctlSignalNext
  cases next : nextSignal config { m with fpmSignalSent := sent, fpmState := state } with
  | mk sig timeout =>
      have withState : Queue
          { m with fpmState := state, fpmSignalSent := some sig }.timer elts := isQueue
      rcases timeoutSet_spec withState timeout arm with ⟨queue, _, data, sets, _⟩
      simp only [sets]
      exact ⟨ReflTransGen.single (.armed state sig timeout isAllowed raises sets), rfl⟩

theorem actionLast_stops (halted : m.fpmState ≠ .normal) (alone : m.runningChildren = 0) :
    Ends (fpmPctlActionLast m) (fun _ => False)
      fun m' => Moves config allowed m m' ∧ m'.runningChildren = 0 := by
  have stopped : Moves config allowed m m ∧ m.runningChildren = 0 := ⟨ReflTransGen.refl, alone⟩
  unfold fpmPctlActionLast
  cases state : m.fpmState with
  | normal => exact absurd state halted
  | reloading => exact stopped
  | finishing => exact stopped
  | terminating => exact stopped

theorem overridable_ne_normal {state newState : FpmState} (different : state ≠ newState)
    (raises : overridable state newState = true) : newState ≠ .normal := by
  cases state <;> cases newState <;> simp_all [overridable]

theorem pctlSet_controls (sound : Sound config m) (isAllowed : allowed arm)
    (newState : FpmState) :
    Controls config allowed m (fpmPctl config arm m (.set newState)) := by
  simp only [fpmPctl]
  split
  · exact controls_same
  · next different =>
    split
    · next raises =>
      unfold fpmPctlActionNext
      split
      · next alone =>
        have move : Move config allowed m { m with fpmSignalSent := none, fpmState := newState } :=
          .raised newState raises alone
        have notNormal := overridable_ne_normal different raises
        apply Controls.after _ (ReflTransGen.single move) rfl
        exact (actionLast_stops notNormal alone).bind fun _ => False.elim
      · exact signalNext_controls sound newState none isAllowed (Or.inr raises)
    · exact controls_same

theorem pctlTimeout_controls (sound : Sound config m) (isAllowed : allowed arm) :
    Controls config allowed m (fpmPctl config arm m .timeout) := by
  have signals := signalNext_controls sound m.fpmState m.fpmSignalSent isAllowed (Or.inl rfl)
  simp only [fpmPctl, fpmPctlActionNext]
  split
  · next alone =>
    by_cases isNormal : m.fpmState = .normal
    · have returns : fpmPctlActionLast m = .ok m := by
        simp [fpmPctlActionLast, isNormal]
      rw [returns]
      exact signals
    · exact (actionLast_stops isNormal alone).bind fun _ => False.elim
  · exact signals

theorem childExited_controls (config : Config) (arm : Arm) (m : Master) :
    Controls config allowed m (fpmPctlChildExited config arm m) := by
  unfold fpmPctlChildExited
  split
  · exact controls_same
  · next notNormal =>
    split
    · next alone =>
      exact (actionLast_stops notNormal alone).mono (fun _ => False.elim) fun _ => id
    · exact controls_same

/-! ### Starting children -/

variable {wp : Nat} {poolConfig : PoolConfig} {max : Int}

theorem mayFork_spec (may : mayFork config m wp max = true) :
    m.fpmState = .normal ∧ (m.pool wp).runningChildren < max ∧
      (config.processMax < 1 ∨ m.runningChildren < config.processMax) := by
  simpa [mayFork, fpmPctlCanSpawnChildren, and_assoc] using may

/-- A round of the loop that goes on adds a child to the pool. -/
theorem forkChild_moves (found : config.pools[wp]? = some poolConfig)
    (within : max ≤ poolConfig.pmMaxChildren) (may : mayFork config m wp max = true)
    (spawn : Spawn) :
    Moves config allowed m (forkChild m wp spawn).1 ∧
      ((forkChild m wp spawn).2 = true →
        ((forkChild m wp spawn).1.pool wp).runningChildren = (m.pool wp).runningChildren + 1) := by
  rcases mayFork_spec may with ⟨isNormal, below, allowedCount⟩
  have unchanged : Moves config allowed m m := ReflTransGen.refl
  cases spawn with
  | noMemory => exact ⟨unchanged, nofun⟩
  | noPipes => exact ⟨unchanged, nofun⟩
  | forkFailed =>
      unfold forkChild
      cases prepares : fpmResourcesPrepare m wp with
      | none => exact ⟨unchanged, nofun⟩
      | some prepared =>
          rcases prepare_spec prepares with ⟨scoreboard, slot, allocates, discards, _⟩
          refine ⟨?_, nofun⟩
          simp only [discards]
          exact ReflTransGen.single (.touched (sameAccounts_discarded allocates) rfl rfl)
  | forked pid started =>
      unfold forkChild
      cases prepares : fpmResourcesPrepare m wp with
      | none => exact ⟨unchanged, nofun⟩
      | some prepared =>
          rcases prepare_spec prepares with ⟨scoreboard, slot, allocates, _, starts⟩
          simp only [starts]
          refine ⟨ReflTransGen.single ?_, fun _ => ?_⟩
          · exact .started pid started found isNormal (Int.lt_of_lt_of_le below within)
              allowedCount allocates
          · simp [startedChild]

theorem childrenMakeLoop_moves (found : config.pools[wp]? = some poolConfig)
    (within : max ≤ poolConfig.pmMaxChildren) (spawn : Nat → Spawn) :
    ∀ {fuel round : Nat} {m : Master}, max - (m.pool wp).runningChildren ≤ fuel →
      ∃ m' code, childrenMakeLoop config wp max spawn fuel round m = .ok (m', code) ∧
        Moves config allowed m m' := by
  intro fuel
  induction fuel with
  | zero =>
      intro round m enough
      have full : mayFork config m wp max = false := by
        rw [Bool.eq_false_iff]
        intro may
        have below := (mayFork_spec may).2.1
        omega
      exact ⟨m, 1, by simp [childrenMakeLoop, full], ReflTransGen.refl⟩
  | succ fuel induction =>
      intro round m enough
      cases may : mayFork config m wp max with
      | false => exact ⟨m, 1, by simp [childrenMakeLoop, may], ReflTransGen.refl⟩
      | true =>
          have forks : Moves config allowed m (forkChild m wp (spawn round)).1 ∧ _ :=
            forkChild_moves found within may (spawn round)
          simp only [childrenMakeLoop, may, if_true]
          cases goesOn : (forkChild m wp (spawn round)).2 with
          | false => exact ⟨_, 2, by simp, forks.1⟩
          | true =>
              have added := forks.2 goesOn
              rcases @induction (round + 1) (forkChild m wp (spawn round)).1 (by omega) with
                ⟨m', code, loops, moves⟩
              exact ⟨m', code, by simpa using loops, forks.1.trans moves⟩

theorem childrenMake_moves (found : config.pools[wp]? = some poolConfig) (inEventLoop : Bool)
    (nbToSpawn : Int) (spawn : Nat → Spawn)
    (within : makeMax poolConfig (m.pool wp) inEventLoop nbToSpawn ≤ poolConfig.pmMaxChildren) :
    ∃ m' code, fpmChildrenMake config m wp poolConfig inEventLoop nbToSpawn spawn =
        .ok (m', code) ∧ Moves config allowed m m' :=
  childrenMakeLoop_moves found within spawn (Int.self_le_toNat _)

/-- In the event loop, room for the new children is all that is needed. -/
theorem makeMax_within {pool : Pool} {nbToSpawn : Int}
    (room : pool.runningChildren + nbToSpawn ≤ poolConfig.pmMaxChildren) :
    makeMax poolConfig pool true nbToSpawn ≤ poolConfig.pmMaxChildren := by
  unfold makeMax
  cases poolConfig.pm with
  | static => exact Int.le_refl _
  | dynamic => exact room
  | ondemand => exact room

/-! ### Burying children -/

theorem findInPools_spec {children : Nat → List Nat} (accounts : Accounts config m children)
    (pid : Int) (pools : List Nat) :
    ∃ found, findInPools m pid pools = .ok found ∧
      ∀ c, found = some c → ∃ wp ∈ pools, c ∈ children wp := by
  induction pools with
  | nil => exact ⟨none, rfl, nofun⟩
  | cons wp pools induction =>
      have pool := accounts.pools wp
      have enough : (children wp).length ≤ m.allocated := length_le_of_lt pool.nodup pool.fresh
      have searched := search_eq_find? pool.segment (fun c => (m.child c).pid = pid) enough
      rw [← pool.head] at searched
      simp only [findInPools, searched]
      cases result : (children wp).find? fun c => (m.child c).pid = pid with
      | none =>
          rcases induction with ⟨found, finds, spec⟩
          refine ⟨found, finds, fun c equal => ?_⟩
          rcases spec c equal with ⟨other, member, inside⟩
          exact ⟨other, List.mem_cons_of_mem _ member, inside⟩
      | some c =>
          refine ⟨some c, rfl, fun c' equal => ?_⟩
          cases equal
          exact ⟨wp, List.mem_cons_self, List.mem_of_find?_eq_some result⟩

theorem checkFaults_controls (sound : Sound config m) (wait : Wait)
    (isAllowed : allowed wait.arm) :
    Controls config allowed m (checkFaults config m wait) := by
  unfold checkFaults
  split
  · exact controls_same
  · next faults _ =>
    split
    · have recorded : Move config allowed m (recordFault config m faults wait.now).1 :=
        .touched { SameAccounts.refl m with } rfl rfl
      have moves : Moves config allowed m _ := ReflTransGen.single recorded
      simp only
      split
      · exact (pctlSet_controls (recorded.sound sound) isAllowed .reloading).after moves rfl
      · exact ⟨moves, rfl⟩
    · exact controls_same

/-- The pool of a buried child has room for one more. -/
theorem buryChild_handles {children : Nat → List Nat} (sound : Sound config m)
    (accounts : Accounts config m children) {c : Nat} (member : c ∈ children wp) (wait : Wait)
    (isAllowed : allowed wait.arm) : Handles config allowed m (buryChild config m c wait) := by
  have owner := (accounts.pools wp).owner c member
  have buried : Move config allowed m (buriedChild m c) := .buried accounts member
  have moves : Moves config allowed m (buriedChild m c) := ReflTransGen.single buried
  have pool : ((buriedChild m c).pool wp).runningChildren = (m.pool wp).runningChildren - 1 := by
    rw [buriedChild_pool owner, update_self]
  have soundBuried := buried.sound sound
  apply Handles.after _ moves
  apply Ends.bind (childExited_controls config wait.arm (buriedChild m c))
  intro m₁ exited
  have faults := checkFaults_controls (exited.1.sound soundBuried) wait isAllowed
  apply Ends.bind (faults.after exited.1 exited.2)
  intro m₂ checked
  split
  · next poolConfig _ found =>
    rw [owner] at found ⊢
    have room : (m₂.pool wp).runningChildren + 1 ≤ poolConfig.pmMaxChildren := by
      have bounded := (accounts.bounded wp poolConfig found).1
      rw [checked.2, pool]
      omega
    rcases childrenMake_moves found true 1 wait.spawn (makeMax_within room) with
      ⟨m₃, code, makes, later⟩
    rw [makes]
    exact checked.1.trans later
  · exact checked.1

theorem buryOne_handles (sound : Sound config m) (wait : Wait) (isAllowed : allowed wait.arm) :
    Handles config allowed m (buryOne config m wait) := by
  rcases sound.accounts with ⟨children, accounts⟩
  have finds : Ends (fpmChildFind config m wait.pid)
      (fun found => ∀ c, found = some c → ∃ wp ∈ List.range config.pools.length, c ∈ children wp)
      fun m' => Moves config allowed m m' ∧ m'.runningChildren = 0 := by
    rcases findInPools_spec accounts wait.pid (List.range config.pools.length) with
      ⟨found, finds, spec⟩
    rw [fpmChildFind, finds]
    exact spec
  apply finds.bind
  intro found spec
  split
  · exact handles_same
  · exact handles_same
  · next c _ =>
    rcases spec c rfl with ⟨wp, _, member⟩
    exact buryChild_handles sound accounts member wait isAllowed

theorem childrenBury_handles (waits : List Wait) :
    ∀ {m : Master}, Sound config m → (∀ wait ∈ waits, allowed wait.arm) →
      Handles config allowed m (fpmChildrenBury config m waits) := by
  induction waits with
  | nil => exact fun _ _ => handles_same
  | cons wait waits induction =>
      intro m sound areAllowed
      apply (buryOne_handles sound wait (areAllowed wait List.mem_cons_self)).bind
      intro m₁ moves
      exact induction (moves.sound sound) fun other member =>
        areAllowed other (List.mem_cons_of_mem _ member)

/-! ### Idle servers -/

theorem touched_setPool (m : Master) {wp : Nat} {pool : Pool}
    (head : pool.children = (m.pool wp).children)
    (running : pool.runningChildren = (m.pool wp).runningChildren)
    (scoreboard : pool.scoreboard = (m.pool wp).scoreboard) :
    Move config allowed m (setPool m wp pool) :=
  .touched (sameAccounts_setPool m head running (congrArg _ scoreboard) (congrArg _ scoreboard))
    rfl rfl

theorem touched_killIdle (m : Master) (c : Nat) : Move config allowed m (killIdle m c) :=
  .touched (sameAccounts_killIdle m c) rfl rfl

theorem maintainOndemand_moves (m : Master) (poolConfig : PoolConfig) (tick : Tick)
    (count : IdleCount) :
    Moves config allowed m (maintainOndemand m poolConfig tick count) := by
  unfold maintainOndemand
  split
  · exact ReflTransGen.refl
  · split
    · exact ReflTransGen.single (touched_killIdle m _)
    · exact ReflTransGen.refl

theorem maintainDynamic_handles (found : config.pools[wp]? = some poolConfig) (m : Master)
    (tick : Tick) (count : IdleCount) :
    Handles config allowed m (maintainDynamic config m wp poolConfig tick count) := by
  have atMax : Handles config allowed m
      (.ok (setPool m wp { m.pool wp with warnMaxChildren := true, idleSpawnRate := 1 })) :=
    ReflTransGen.single (touched_setPool m rfl rfl rfl)
  unfold maintainDynamic
  simp only
  split
  · split
    · exact handles_same
    · next c _ =>
      have killed : Moves config allowed m (killIdle m c) :=
        ReflTransGen.single (touched_killIdle m c)
      exact killed.tail (touched_setPool (killIdle m c) rfl rfl rfl)
  · split
    · split
      · exact atMax
      · split
        · exact atMax
        · have warned : Moves config allowed m
              (setPool m wp { m.pool wp with warnMaxChildren := false }) :=
            ReflTransGen.single (touched_setPool m rfl rfl rfl)
          have room : ((setPool m wp { m.pool wp with warnMaxChildren := false }).pool wp).runningChildren +
              min (min (m.pool wp).idleSpawnRate (poolConfig.pmMinSpareServers - count.idle))
                (poolConfig.pmMaxChildren - (m.pool wp).runningChildren) ≤
                poolConfig.pmMaxChildren := by
            simp only [setPool, update_self]
            omega
          rcases childrenMake_moves found true _ (tick.spawn wp) (makeMax_within room) with
            ⟨m₁, code, makes, later⟩
          rw [makes]
          have moves := warned.trans later
          change Handles config allowed m (if _ then .ok _ else .ok _)
          split
          · exact moves.tail (touched_setPool m₁ rfl rfl rfl)
          · exact moves
    · exact ReflTransGen.single (touched_setPool m rfl rfl rfl)

theorem maintainPool_handles (sound : Sound config m) (found : config.pools[wp]? = some poolConfig)
    (tick : Tick) : Handles config allowed m (maintainPool config tick m wp poolConfig) := by
  rcases sound.accounts with ⟨children, accounts⟩
  have pool := accounts.pools wp
  have enough : (children wp).length ≤ m.allocated := length_le_of_lt pool.nodup pool.fresh
  have walks := follow_eq pool.segment enough
  rw [← pool.head] at walks
  unfold maintainPool
  rw [walks]
  simp only
  split
  · exact maintainOndemand_moves m poolConfig tick _
  · exact maintainDynamic_handles found m tick _
  · exact handles_same

theorem maintainPools_handles (tick : Tick) (pools : List PoolConfig) :
    ∀ {wp : Nat} {m : Master}, config.pools.drop wp = pools → Sound config m →
      Handles config allowed m (maintainPools config tick wp pools m) := by
  induction pools with
  | nil => exact fun _ _ => handles_same
  | cons poolConfig pools induction =>
      intro wp m rest sound
      have found : config.pools[wp]? = some poolConfig := by
        rw [← Nat.add_zero wp, ← List.getElem?_drop, rest]
        rfl
      apply (maintainPool_handles sound found tick).bind
      intro m₁ moves
      apply induction _ (moves.sound sound)
      rw [← List.drop_drop, rest]
      rfl

theorem onSocketAccept_handles (sound : Sound config m)
    (found : config.pools[wp]? = some poolConfig) (idle : Nat → Bool) (spawn : Nat → Spawn) :
    Handles config allowed m (onSocketAccept config m wp poolConfig idle spawn) := by
  rcases sound.accounts with ⟨children, accounts⟩
  have pool := accounts.pools wp
  have enough : (children wp).length ≤ m.allocated := length_le_of_lt pool.nodup pool.fresh
  have searched := search_eq_find? pool.segment idle enough
  rw [← pool.head] at searched
  unfold onSocketAccept
  simp only
  split
  · exact ReflTransGen.single (touched_setPool m rfl rfl rfl)
  · next below =>
    rw [searched]
    cases (children wp).find? idle with
    | some c => exact handles_same
    | none =>
        have warned : Moves config allowed m
            (setPool m wp { m.pool wp with warnMaxChildren := false }) :=
          ReflTransGen.single (touched_setPool m rfl rfl rfl)
        have room : ((setPool m wp { m.pool wp with warnMaxChildren := false }).pool wp).runningChildren +
            1 ≤ poolConfig.pmMaxChildren := by
          simp only [setPool, update_self]
          omega
        rcases childrenMake_moves found true 1 spawn (makeMax_within room) with
          ⟨m₁, code, makes, later⟩
        simp only [makes]
        exact warned.trans later

/-! ### All callbacks -/

/-- The answers of the clock and of `malloc` that a callback meets. -/
def Handler.arms : Handler → List Arm
  | .sigterm arm | .sigint arm | .sigquit arm | .sigusr2 arm | .pctlTimeout arm => [arm]
  | .sigchld waits => waits.map Wait.arm
  | .socketAccept _ _ _ | .idleMaintenance _ | .heartbeat => []

theorem handle_handles (sound : Sound config m) (handler : Handler)
    (areAllowed : ∀ arm ∈ handler.arms, allowed arm) :
    Handles config allowed m (handle config m handler) := by
  cases handler with
  | sigterm arm | sigint arm =>
      exact (pctlSet_controls sound (areAllowed arm List.mem_cons_self) .terminating).handles
  | sigquit arm =>
      exact (pctlSet_controls sound (areAllowed arm List.mem_cons_self) .finishing).handles
  | sigusr2 arm =>
      exact (pctlSet_controls sound (areAllowed arm List.mem_cons_self) .reloading).handles
  | pctlTimeout arm =>
      exact (pctlTimeout_controls sound (areAllowed arm List.mem_cons_self)).handles
  | sigchld waits =>
      exact childrenBury_handles waits sound fun wait member =>
        areAllowed wait.arm (List.mem_map_of_mem member)
  | socketAccept wp idle spawn =>
      simp only [handle]
      split
      · next poolConfig found =>
        split
        · exact onSocketAccept_handles sound found idle spawn
        · exact handles_same
      · exact handles_same
  | idleMaintenance tick =>
      simp only [handle, idleMaintenanceHeartbeat]
      split
      · exact maintainPools_handles tick config.pools rfl sound
      · exact handles_same
  | heartbeat => exact handles_same

end PhpRuntime.Fpm
