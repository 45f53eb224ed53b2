import PhpRuntime.Foundation.Integers
import PhpRuntime.Foundation.Linked

/-! # The FPM master process

The master of `sapi/fpm/fpm`: process control (`fpm_process_ctl.c`), the children of each
worker pool (`fpm_children.c`), the scoreboard slots (`fpm_scoreboard.c`) and the timer
queue (`fpm_events.c`). Every callback of the event loop is a function on the state of the
master. What the operating system answers (`fork`, `waitpid`, the clock, `malloc`, what the
children report in shared memory) is an argument; log output, the pipes of the children and
the signals sent to them leave no trace in the state.
-/

namespace PhpRuntime.Fpm

open Function Linked Integers

/-- `fpm_state` -/
inductive FpmState
  | normal
  | reloading
  | finishing
  | terminating
  deriving DecidableEq, Repr

/-- `fpm_signal_sent`, when it is not 0 -/
inductive Signal
  | sigquit
  | sigterm
  | sigkill
  deriving DecidableEq, Repr

inductive PmStyle
  | static
  | dynamic
  | ondemand
  deriving DecidableEq, Repr

structure PoolConfig where
  pm : PmStyle
  pmMaxChildren : Int
  pmStartServers : Int
  pmMinSpareServers : Int
  pmMaxSpareServers : Int
  pmProcessIdleTimeout : Int

/-- `fpm_global_config` and the worker pools, in the order of `fpm_worker_all_pools` -/
structure Config where
  processMax : Int
  processControlTimeout : Nat
  emergencyRestartThreshold : Nat
  emergencyRestartInterval : Int
  pools : List PoolConfig

structure Scoreboard where
  nprocs : Nat
  freeProc : Int
  used : Nat → Bool

/-- The runtime part of a worker pool. -/
structure Pool where
  children : Option Nat
  runningChildren : Int
  idleSpawnRate : Int
  warnMaxChildren : Bool
  scoreboard : Scoreboard

structure Child where
  wp : Nat
  pid : Int
  idleKill : Bool
  scoreboardI : Int
  started : Nat

/-- The timer events of the master. -/
inductive TimerEvent
  | pctlEvent
  | heartbeat
  | idleMaintenance
  | systemdHeartbeat
  deriving DecidableEq, Repr

/-- The fields of `fpm_event_s` that a timer uses; times are in microseconds. -/
structure TimerData where
  persist : Bool
  timeout : Nat
  frequency : Nat

/-- `fpm_event_queue_timer` and its elements -/
structure EventQueue where
  head : Option Nat
  prev : Nat → Option Nat
  next : Nat → Option Nat
  ev : Nat → TimerEvent
  allocated : Nat

/-- The state of the master. Children and queue elements have addresses, and `allocated` is
the next fresh one. `forks` records `fpm_state` at each successful `fork`. -/
structure Master where
  fpmState : FpmState
  fpmSignalSent : Option Signal
  runningChildren : Int
  pool : Nat → Pool
  child : Nat → Child
  prev : Nat → Option Nat
  next : Nat → Option Nat
  allocated : Nat
  lastFaults : Option (Nat → Int)
  fault : Nat
  timer : EventQueue
  event : TimerEvent → TimerData
  forks : List FpmState

/-- How a function may end without returning. -/
inductive Stop
  | exit (m : Master)
  | exec (m : Master)
  /-- A loop over a list did not find its end. -/
  | stuck

abbrev Run (α : Type) := Except Stop α

/-! ## Timers -/

/-- What `fpm_clock_get` and `malloc` answer to `fpm_event_add`. -/
structure Arm where
  now : Nat
  memory : Bool

namespace EventQueue

/-- `fpm_event_queue_isset` -/
def isset (queue : EventQueue) (ev : TimerEvent) : Run Bool :=
  match search queue.next (fun elt => queue.ev elt = ev) queue.allocated queue.head with
  | none => .error .stuck
  | some found => .ok found.isSome

/-- A new element in front of the queue. -/
def push (queue : EventQueue) (ev : TimerEvent) : EventQueue :=
  let elt := queue.allocated
  { head := some elt
    prev := assign (update queue.prev elt none) queue.head (some elt)
    next := update queue.next elt queue.head
    ev := update queue.ev elt ev
    allocated := queue.allocated + 1 }

/-- `fpm_event_queue_add` -/
def add (queue : EventQueue) (ev : TimerEvent) (memory : Bool) : Run EventQueue := do
  let isSet ← queue.isset ev
  if isSet then
    return queue
  else if memory then
    return queue.push ev
  else
    return queue

/-- The removal of an element, in `fpm_event_queue_del` and in `fpm_event_loop`. -/
def remove (queue : EventQueue) (elt : Nat) : EventQueue :=
  { queue with
    head := if queue.head = some elt then queue.next elt else queue.head
    prev :=
      let unlinked := assign queue.prev (queue.next elt) (queue.prev elt)
      if queue.head = some elt then assign unlinked (queue.next elt) none else unlinked
    next := assign queue.next (queue.prev elt) (queue.next elt) }

end EventQueue

/-- `fpm_event_set_timer` -/
def fpmEventSetTimer (m : Master) (ev : TimerEvent) (persist : Bool) : Master :=
  { m with event := update m.event ev { persist := persist, timeout := 0, frequency := 0 } }

/-- `fpm_event_add` for a timer; `frequency` is in milliseconds -/
def fpmEventAdd (m : Master) (ev : TimerEvent) (frequency : Nat) (arm : Arm) : Run Master := do
  let data := { m.event ev with
    frequency := frequency * 1000
    timeout := arm.now + frequency * 1000 }
  let queue ← m.timer.add ev arm.memory
  return { m with event := update m.event ev data, timer := queue }

/-! ## Process control -/

/-- `fpm_pctl_timeout_set`; the product is an `int` -/
def fpmPctlTimeoutSet (m : Master) (sec : Nat) (arm : Arm) : Run Master :=
  fpmEventAdd (fpmEventSetTimer m .pctlEvent false) .pctlEvent (sizeT (int (sec * 1000))) arm

/-- `fpm_pctl_exec` and `fpm_pctl_exit` do not return. -/
def fpmPctlActionLast (m : Master) : Run Master :=
  match m.fpmState with
  | .reloading => .error (.exec m)
  | .finishing | .terminating => .error (.exit m)
  | .normal => .ok m

/-- The signal that follows `fpm_signal_sent` and the time to wait for its effect. -/
def nextSignal (config : Config) (m : Master) : Signal × Nat :=
  match m.fpmSignalSent with
  | none =>
      (if m.fpmState = .terminating then .sigterm else .sigquit, config.processControlTimeout)
  | some .sigquit => (.sigterm, 1)
  | some _ => (.sigkill, 1)

/-- `fpm_pctl_action_next` behind its first test -/
def fpmPctlSignalNext (config : Config) (arm : Arm) (m : Master) : Run Master :=
  let (sig, timeout) := nextSignal config m
  fpmPctlTimeoutSet { m with fpmSignalSent := some sig } timeout arm

def fpmPctlActionNext (config : Config) (arm : Arm) (m : Master) : Run Master :=
  if m.runningChildren = 0 then do
    let m ← fpmPctlActionLast m
    fpmPctlSignalNext config arm m
  else
    fpmPctlSignalNext config arm m

inductive PctlAction
  | set (newState : FpmState)
  | timeout
  | lastChildExited

/-- Which states can be overridden. -/
def overridable : FpmState → FpmState → Bool
  | .normal, _ => true
  | .reloading, newState => newState = .finishing || newState = .terminating
  | .finishing, newState => newState = .terminating
  | .terminating, _ => false

def fpmPctl (config : Config) (arm : Arm) (m : Master) : PctlAction → Run Master
  | .set newState =>
      if m.fpmState = newState then
        .ok m
      else if overridable m.fpmState newState then
        fpmPctlActionNext config arm { m with fpmSignalSent := none, fpmState := newState }
      else
        .ok m
  | .timeout => fpmPctlActionNext config arm m
  | .lastChildExited => fpmPctlActionLast m

def fpmPctlCanSpawnChildren (m : Master) : Bool := m.fpmState = .normal

def fpmPctlChildExited (config : Config) (arm : Arm) (m : Master) : Run Master :=
  if m.fpmState = .normal then
    .ok m
  else if m.runningChildren = 0 then
    fpmPctl config arm m .lastChildExited
  else
    .ok m

/-! ## Scoreboard slots -/

/-- `fpm_scoreboard_proc_free` -/
def procFree (scoreboard : Scoreboard) (childIndex : Int) : Scoreboard :=
  if childIndex < 0 ∨ childIndex ≥ scoreboard.nprocs then
    scoreboard
  else
    { scoreboard with
      used := update scoreboard.used childIndex.toNat false
      freeProc := childIndex }

/-- The slot that `fpm_scoreboard_proc_alloc` takes: the one supposed to be free, or the
first free one. -/
def freeSlot (scoreboard : Scoreboard) : Option Nat :=
  if 0 ≤ scoreboard.freeProc ∧ scoreboard.freeProc < scoreboard.nprocs ∧
      scoreboard.used scoreboard.freeProc.toNat = false then
    some scoreboard.freeProc.toNat
  else
    (List.range scoreboard.nprocs).find? fun i => !scoreboard.used i

/-- `fpm_scoreboard_proc_alloc` -/
def procAlloc (scoreboard : Scoreboard) : Option (Scoreboard × Nat) :=
  (freeSlot scoreboard).map fun i =>
    ({ scoreboard with
        used := update scoreboard.used i true
        freeProc := if i + 1 ≥ scoreboard.nprocs then 0 else (i : Int) + 1 }, i)

/-! ## Children -/

def fpmChildLink (m : Master) (c : Nat) : Master :=
  let wp := (m.child c).wp
  let pool := m.pool wp
  { m with
    runningChildren := m.runningChildren + 1
    pool := update m.pool wp
      { pool with runningChildren := pool.runningChildren + 1, children := some c }
    next := update m.next c pool.children
    prev := update (assign m.prev pool.children (some c)) c none }

def fpmChildUnlink (m : Master) (c : Nat) : Master :=
  let wp := (m.child c).wp
  let pool := m.pool wp
  { m with
    runningChildren := m.runningChildren - 1
    pool := update m.pool wp
      { pool with
        runningChildren := pool.runningChildren - 1
        children := if (m.prev c).isSome then pool.children else m.next c }
    next := assign m.next (m.prev c) (m.next c)
    prev := assign m.prev (m.next c) (m.prev c) }

/-- The two loops of `fpm_child_find` over the given pools. -/
def findInPools (m : Master) (pid : Int) : List Nat → Run (Option Nat)
  | [] => .ok none
  | wp :: pools =>
      match search m.next (fun c => (m.child c).pid = pid) m.allocated (m.pool wp).children with
      | none => .error .stuck
      | some (some c) => .ok (some c)
      | some none => findInPools m pid pools

def fpmChildFind (config : Config) (m : Master) (pid : Int) : Run (Option Nat) :=
  findInPools m pid (List.range config.pools.length)

def setScoreboard (m : Master) (wp : Nat) (scoreboard : Scoreboard) : Master :=
  { m with pool := update m.pool wp { m.pool wp with scoreboard := scoreboard } }

/-- What happens between `fpm_child_alloc` and the answer of `fork`. -/
inductive Spawn
  | noMemory
  | noPipes
  | forkFailed
  | forked (pid : Int) (started : Nat)

/-- `fpm_resources_prepare` behind the allocation of the child and its pipes -/
def fpmResourcesPrepare (m : Master) (wp : Nat) : Option Master :=
  (procAlloc (m.pool wp).scoreboard).map fun (scoreboard, i) =>
    let child : Child := { wp := wp, pid := 0, idleKill := false, scoreboardI := i, started := 0 }
    { setScoreboard m wp scoreboard with
      child := update m.child m.allocated child
      allocated := m.allocated + 1 }

/-- `fpm_resources_discard` for the child `c` -/
def fpmResourcesDiscard (m : Master) (c : Nat) : Master :=
  let wp := (m.child c).wp
  setScoreboard m wp (procFree (m.pool wp).scoreboard (m.child c).scoreboardI)

/-- The parent behind `fork`. -/
def parentForked (m : Master) (c : Nat) (pid : Int) (started : Nat) : Master :=
  fpmChildLink
    { m with
      child := update m.child c { m.child c with pid := pid, started := started }
      forks := m.forks ++ [m.fpmState] } c

/-- One round of the loop in `fpm_children_make`; the flag says whether it goes on. -/
def forkChild (m : Master) (wp : Nat) : Spawn → Master × Bool
  | .noMemory | .noPipes => (m, false)
  | .forkFailed =>
      match fpmResourcesPrepare m wp with
      | none => (m, false)
      | some prepared => (fpmResourcesDiscard prepared m.allocated, false)
  | .forked pid started =>
      match fpmResourcesPrepare m wp with
      | none => (m, false)
      | some prepared => (parentForked prepared m.allocated pid started, true)

/-- The condition of the loop in `fpm_children_make`. -/
def mayFork (config : Config) (m : Master) (wp : Nat) (max : Int) : Bool :=
  fpmPctlCanSpawnChildren m && (m.pool wp).runningChildren < max &&
    (config.processMax < 1 || m.runningChildren < config.processMax)

/-- The loop, with the number of rounds left and the number of rounds done. The result is 1
when the loop ended by its condition and 2 after a failure. -/
def childrenMakeLoop (config : Config) (wp : Nat) (max : Int) (spawn : Nat → Spawn) :
    Nat → Nat → Master → Run (Master × Nat)
  | 0, _, m => if mayFork config m wp max then .error .stuck else .ok (m, 1)
  | fuel + 1, round, m =>
      if mayFork config m wp max then
        let (m, forked) := forkChild m wp (spawn round)
        if forked then childrenMakeLoop config wp max spawn fuel (round + 1) m else .ok (m, 2)
      else
        .ok (m, 1)

/-- `max` in `fpm_children_make` -/
def makeMax (poolConfig : PoolConfig) (pool : Pool) (inEventLoop : Bool) (nbToSpawn : Int) :
    Int :=
  match poolConfig.pm with
  | .dynamic =>
      if inEventLoop then pool.runningChildren + nbToSpawn else poolConfig.pmStartServers
  | .ondemand => if inEventLoop then pool.runningChildren + nbToSpawn else 0
  | .static => poolConfig.pmMaxChildren

def fpmChildrenMake (config : Config) (m : Master) (wp : Nat) (poolConfig : PoolConfig)
    (inEventLoop : Bool) (nbToSpawn : Int) (spawn : Nat → Spawn) : Run (Master × Nat) :=
  let max := makeMax poolConfig (m.pool wp) inEventLoop nbToSpawn
  childrenMakeLoop config wp max spawn (max - (m.pool wp).runningChildren).toNat 0 m

/-! ### Children that have ended -/

inductive WaitStatus
  | exited (code : Nat)
  | signaled (signal : Nat)
  | stopped
  deriving DecidableEq, Repr

/-- One answer of `waitpid`, with what is met while it is handled. -/
structure Wait where
  pid : Int
  status : WaitStatus
  now : Int
  arm : Arm
  spawn : Nat → Spawn

/-- SIGSEGV or SIGBUS -/
def WaitStatus.isFault : WaitStatus → Bool
  | .signaled signal => signal = 11 || signal = 7
  | _ => false

/-- Whether the child is replaced: not when it was stopped for being idle. -/
def restartChild (idleKill : Bool) : WaitStatus → Bool
  | .exited _ => !idleKill
  | .signaled signal => !(idleKill && signal = 3)
  | .stopped => true

/-- The record of faults, and whether all of them are recent. -/
def recordFault (config : Config) (m : Master) (faults : Nat → Int) (now : Int) :
    Master × Bool :=
  let faults := update faults m.fault now
  let fault := m.fault + 1
  ({ m with
      lastFaults := some faults
      fault := if fault = config.emergencyRestartThreshold then 0 else fault },
    (List.range config.emergencyRestartThreshold).all fun i =>
      !(now - faults i > config.emergencyRestartInterval))

/-- The emergency restart in `fpm_children_bury`. -/
def checkFaults (config : Config) (m : Master) (wait : Wait) : Run Master :=
  match m.lastFaults with
  | none => .ok m
  | some faults =>
      if wait.status.isFault then
        let (m, restartCondition) := recordFault config m faults wait.now
        if restartCondition then fpmPctl config wait.arm m (.set .reloading) else .ok m
      else
        .ok m

/-- The branch of `fpm_children_bury` for a child of the master. -/
def buryChild (config : Config) (m : Master) (c : Nat) (wait : Wait) : Run Master := do
  let wp := (m.child c).wp
  let slot := (m.child c).scoreboardI
  let restart := restartChild (m.child c).idleKill wait.status
  let m := fpmChildUnlink m c
  let m := setScoreboard m wp (procFree (m.pool wp).scoreboard slot)
  let m ← fpmPctlChildExited config wait.arm m
  let m ← checkFaults config m wait
  match restart, config.pools[wp]? with
  | true, some poolConfig =>
      let made ← fpmChildrenMake config m wp poolConfig true 1 wait.spawn
      return made.1
  | _, _ => return m

def buryOne (config : Config) (m : Master) (wait : Wait) : Run Master := do
  let found ← fpmChildFind config m wait.pid
  match wait.status, found with
  | .stopped, _ => return m
  | _, none => return m
  | _, some c => buryChild config m c wait

def fpmChildrenBury (config : Config) : Master → List Wait → Run Master
  | m, [] => .ok m
  | m, wait :: waits => do
      let m ← buryOne config m wait
      fpmChildrenBury config m waits

/-! ## Idle servers -/

/-- What `fpm_pctl_perform_idle_server_maintenance` learns from outside: which children are
idle and since when, in seconds, and how the forks of each pool end. -/
structure Tick where
  idle : Nat → Bool
  lastActivity : Nat → Int
  now : Int
  spawn : Nat → Nat → Spawn

structure IdleCount where
  idle : Int
  active : Int
  lastIdleChild : Option Nat

def countChild (m : Master) (tick : Tick) (count : IdleCount) (c : Nat) : IdleCount :=
  if tick.idle c then
    { count with
      idle := count.idle + 1
      lastIdleChild :=
        match count.lastIdleChild with
        | none => some c
        | some last => if (m.child c).started < (m.child last).started then some c else some last }
  else
    { count with active := count.active + 1 }

def setPool (m : Master) (wp : Nat) (pool : Pool) : Master :=
  { m with pool := update m.pool wp pool }

/-- `idle_kill = 1` before the signal is sent -/
def killIdle (m : Master) (c : Nat) : Master :=
  { m with child := update m.child c { m.child c with idleKill := true } }

def fpmMaxSpawnRate : Int := 32

/-- The part for `PM_STYLE_ONDEMAND`. -/
def maintainOndemand (m : Master) (poolConfig : PoolConfig) (tick : Tick) (count : IdleCount) :
    Master :=
  match count.lastIdleChild with
  | none => m
  | some c =>
      if tick.lastActivity c < tick.now - poolConfig.pmProcessIdleTimeout then killIdle m c else m

/-- The part for `PM_STYLE_DYNAMIC`. -/
def maintainDynamic (config : Config) (m : Master) (wp : Nat) (poolConfig : PoolConfig)
    (tick : Tick) (count : IdleCount) : Run Master := do
  let pool := m.pool wp
  let atMax : Master := setPool m wp { pool with warnMaxChildren := true, idleSpawnRate := 1 }
  if count.idle > poolConfig.pmMaxSpareServers ∧ count.lastIdleChild.isSome then
    match count.lastIdleChild with
    | none => return m
    | some c => return setPool (killIdle m c) wp { pool with idleSpawnRate := 1 }
  else if count.idle < poolConfig.pmMinSpareServers then
    if pool.runningChildren ≥ poolConfig.pmMaxChildren then
      return atMax
    else
      let childrenToFork := min pool.idleSpawnRate (poolConfig.pmMinSpareServers - count.idle)
      let childrenToFork := min childrenToFork (poolConfig.pmMaxChildren - pool.runningChildren)
      if childrenToFork ≤ 0 then
        return atMax
      else
        let m := setPool m wp { pool with warnMaxChildren := false }
        let (m, _) ← fpmChildrenMake config m wp poolConfig true childrenToFork (tick.spawn wp)
        let pool := m.pool wp
        if pool.idleSpawnRate < fpmMaxSpawnRate then
          return setPool m wp { pool with idleSpawnRate := pool.idleSpawnRate * 2 }
        else
          return m
  else
    return setPool m wp { pool with idleSpawnRate := 1 }

def maintainPool (config : Config) (tick : Tick) (m : Master) (wp : Nat)
    (poolConfig : PoolConfig) : Run Master :=
  match follow m.next m.allocated (m.pool wp).children with
  | none => .error .stuck
  | some children =>
      let count := children.foldl (countChild m tick) { idle := 0, active := 0, lastIdleChild := none }
      match poolConfig.pm with
      | .ondemand => .ok (maintainOndemand m poolConfig tick count)
      | .dynamic => maintainDynamic config m wp poolConfig tick count
      | .static => .ok m

/-- The loop over the pools, `wp` being the number of the first one. -/
def maintainPools (config : Config) (tick : Tick) :
    Nat → List PoolConfig → Master → Run Master
  | _, [], m => .ok m
  | wp, poolConfig :: pools, m => do
      let m ← maintainPool config tick m wp poolConfig
      maintainPools config tick (wp + 1) pools m

/-- `fpm_pctl_perform_idle_server_maintenance_heartbeat`, as the callback of its timer -/
def idleMaintenanceHeartbeat (config : Config) (tick : Tick) (m : Master) : Run Master :=
  if fpmPctlCanSpawnChildren m then maintainPools config tick 0 config.pools m else .ok m

/-- `fpm_pctl_on_socket_accept` -/
def onSocketAccept (config : Config) (m : Master) (wp : Nat) (poolConfig : PoolConfig)
    (idle : Nat → Bool) (spawn : Nat → Spawn) : Run Master :=
  let pool := m.pool wp
  if pool.runningChildren ≥ poolConfig.pmMaxChildren then
    .ok (setPool m wp { pool with warnMaxChildren := true })
  else
    match search m.next idle m.allocated pool.children with
    | none => .error .stuck
    | some (some _) => .ok m
    | some none => do
        let m := setPool m wp { pool with warnMaxChildren := false }
        let made ← fpmChildrenMake config m wp poolConfig true 1 spawn
        return made.1

/-! ## The run of the master -/

/-- A callback of the event loop together with what it meets. -/
inductive Handler
  | sigterm (arm : Arm)
  | sigint (arm : Arm)
  | sigquit (arm : Arm)
  | sigusr2 (arm : Arm)
  | sigchld (waits : List Wait)
  | socketAccept (wp : Nat) (idle : Nat → Bool) (spawn : Nat → Spawn)
  | idleMaintenance (tick : Tick)
  | pctlTimeout (arm : Arm)
  /-- `fpm_pctl_heartbeat`, which looks for requests that take too long -/
  | heartbeat

def handle (config : Config) (m : Master) : Handler → Run Master
  | .sigterm arm | .sigint arm => fpmPctl config arm m (.set .terminating)
  | .sigquit arm => fpmPctl config arm m (.set .finishing)
  | .sigusr2 arm => fpmPctl config arm m (.set .reloading)
  | .sigchld waits => fpmChildrenBury config m waits
  | .socketAccept wp idle spawn =>
      match config.pools[wp]? with
      | some poolConfig =>
          if poolConfig.pm = .ondemand then onSocketAccept config m wp poolConfig idle spawn
          else .ok m
      | none => .ok m
  | .idleMaintenance tick => idleMaintenanceHeartbeat config tick m
  | .pctlTimeout arm => fpmPctl config arm m .timeout
  | .heartbeat => .ok m

def emptyQueue : EventQueue where
  head := none
  prev := fun _ => none
  next := fun _ => none
  ev := fun _ => .pctlEvent
  allocated := 0

/-- The master behind `fpm_init`; `fpm_scoreboard_init_main` refuses a pool without children. -/
def fpmInit (config : Config) : Option Master :=
  if config.pools.all fun poolConfig => 1 ≤ poolConfig.pmMaxChildren then
    some {
      fpmState := .normal
      fpmSignalSent := none
      runningChildren := 0
      pool := fun wp =>
        { children := none
          runningChildren := 0
          idleSpawnRate := 1
          warnMaxChildren := false
          scoreboard :=
            { nprocs := ((config.pools[wp]?).map (·.pmMaxChildren.toNat)).getD 0
              freeProc := 0
              used := fun _ => false } }
      child := fun _ =>
        { wp := 0, pid := 0, idleKill := false, scoreboardI := -1, started := 0 }
      prev := fun _ => none
      next := fun _ => none
      allocated := 0
      lastFaults :=
        if config.emergencyRestartThreshold ≠ 0 ∧ config.emergencyRestartInterval ≠ 0 then
          some fun _ => 0
        else
          none
      fault := 0
      timer := emptyQueue
      event := fun _ => { persist := false, timeout := 0, frequency := 0 }
      forks := [] }
  else
    none

/-- The loop of `fpm_run` over the pools, `wp` being the number of the first one. A failure
makes the master terminate and leaves the other pools without children. -/
def createInitial (config : Config) (arm : Arm) (spawn : Nat → Nat → Spawn) :
    Nat → List PoolConfig → Master → Run Master
  | _, [], m => .ok m
  | wp, poolConfig :: pools, m =>
      if poolConfig.pm = .ondemand then
        createInitial config arm spawn (wp + 1) pools m
      else do
        let (m, isParent) ← fpmChildrenMake config m wp poolConfig false 0 (spawn wp)
        if isParent = 2 then
          fpmPctl config arm m (.set .terminating)
        else
          createInitial config arm spawn (wp + 1) pools m

def runHandlers (config : Config) : Master → List Handler → Run Master
  | m, [] => .ok m
  | m, handler :: handlers => do
      let m ← handle config m handler
      runHandlers config m handlers

/-- `fpm_run` in the master: the first children, then the callbacks in the order in which the
event loop calls them. -/
def fpmRun (config : Config) (m : Master) (arm : Arm) (spawn : Nat → Nat → Spawn)
    (handlers : List Handler) : Run Master := do
  let m ← createInitial config arm spawn 0 config.pools m
  runHandlers config m handlers

end PhpRuntime.Fpm
