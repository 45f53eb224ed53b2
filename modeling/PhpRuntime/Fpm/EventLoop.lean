import PhpRuntime.Fpm.Accounting

/-! # The event loop of the master

An iteration of `fpm_event_loop` first waits, and the callbacks of the signal pipe and of the
sockets run; then it goes through the timer queue once. A timer without `FPM_EV_PERSIST` is
taken out of the queue when its callback has returned.
-/

namespace PhpRuntime.Fpm

open Function Relation

/-! ## Timers that are due -/

/-- What a timer callback meets. -/
structure TimerEnv where
  arm : Arm
  tick : Tick

/-- The callbacks of the timer events. The one of systemd sends a message to it. -/
def timerCallback (config : Config) (env : TimerEnv) (m : Master) : TimerEvent → Run Master
  | .pctlEvent => handle config m (.pctlTimeout env.arm)
  | .idleMaintenance => handle config m (.idleMaintenance env.tick)
  | .heartbeat => handle config m .heartbeat
  | .systemdHeartbeat => .ok m

/-- A round of the loop over the timers behind the call of the callback. -/
def afterCallback (now : Nat) (q : Nat) (m : Master) : Master × Option Nat :=
  let ev := m.timer.ev q
  let data := m.event ev
  if data.persist then
    ({ m with event := update m.event ev { data with timeout := now + data.frequency } },
      m.timer.next q)
  else
    ({ m with timer := m.timer.remove q }, m.timer.next q)

/-- A round of the loop over the timers; the second part of the result is the next `q`. -/
def checkTimer (callback : Master → TimerEvent → Run Master) (now : Nat) (m : Master) (q : Nat) :
    Run (Master × Option Nat) :=
  let ev := m.timer.ev q
  if (m.event ev).timeout ≤ now then do
    let m ← callback m ev
    return afterCallback now q m
  else
    return (m, m.timer.next q)

/-! ## Iterations -/

inductive Phase
  | waiting
  | timers (q : Option Nat)
  deriving DecidableEq, Repr

structure Loop where
  master : Master
  phase : Phase

inductive LoopStep
  /-- A callback of the signal pipe or of a listening socket. -/
  | callback (handler : Handler)
  /-- `module->wait` has returned. -/
  | wake
  /-- A round of the loop over the timers. -/
  | check (now : Nat) (env : TimerEnv)
  /-- The next iteration. -/
  | again

/-- The callbacks that wait for input. -/
def Handler.waitsForInput : Handler → Bool
  | .sigterm _ | .sigint _ | .sigquit _ | .sigusr2 _ | .sigchld _ | .socketAccept _ _ _ => true
  | .idleMaintenance _ | .pctlTimeout _ | .heartbeat => false

/-- A step that does not fit the phase changes nothing. -/
def loopStep (config : Config) (loop : Loop) (step : LoopStep) : Run Loop :=
  match step, loop.phase with
  | .callback handler, .waiting =>
      if handler.waitsForInput then do
        let m ← handle config loop.master handler
        return { loop with master := m }
      else
        .ok loop
  | .wake, .waiting => .ok { loop with phase := .timers loop.master.timer.head }
  | .check now env, .timers (some q) => do
      let (m, next) ← checkTimer (timerCallback config env) now loop.master q
      return { master := m, phase := .timers next }
  | .again, .timers none => .ok { loop with phase := .waiting }
  | _, _ => .ok loop

def runLoop (config : Config) : Loop → List LoopStep → Run Loop
  | loop, [] => .ok loop
  | loop, step :: steps => do
      let loop ← loopStep config loop step
      runLoop config loop steps

def addPersistent (m : Master) (ev : TimerEvent) (frequency : Nat) (arm : Arm) : Run Master :=
  if frequency = 0 then .ok m else fpmEventAdd (fpmEventSetTimer m ev true) ev frequency arm

/-- The beginning of `fpm_event_loop`; `err` is set when the first children could not be
started. A frequency of 0 means that the timer is not used. -/
def startLoop (m : Master) (heartbeat systemd : Nat) (arm : TimerEvent → Arm) : Run Loop := do
  let m ← addPersistent m .heartbeat (if heartbeat = 0 then 0 else max heartbeat 130)
    (arm .heartbeat)
  let err := !fpmPctlCanSpawnChildren m
  let m ← addPersistent m .idleMaintenance (if err then 0 else 1000) (arm .idleMaintenance)
  let m ← addPersistent m .systemdHeartbeat (if err then 0 else systemd) (arm .systemdHeartbeat)
  return { master := m, phase := .waiting }

/-- The master from its start. -/
def runMaster (config : Config) (m : Master) (arm : Arm) (spawn : Nat → Nat → Spawn)
    (heartbeat systemd : Nat) (arms : TimerEvent → Arm) (steps : List LoopStep) : Run Loop := do
  let m ← createInitial config arm spawn 0 config.pools m
  let loop ← startLoop m heartbeat systemd arms
  runLoop config loop steps

/-! ## The escalation timer -/

/-- While children are to be stopped, the timer that goes on to the next signal is queued. -/
def Armed (m : Master) : Prop :=
  m.fpmState ≠ .normal → 0 < m.runningChildren → m.timer.isset .pctlEvent = .ok true

/-- `malloc` has memory for a queue element. -/
def HasMemory (arm : Arm) : Prop := arm.memory = true

variable {config : Config} {allowed : Arm → Prop} {m m' : Master} {elts : List Nat}

theorem Queue.isset_true {queue : EventQueue} {ev : TimerEvent} (isQueue : Queue queue elts) :
    queue.isset ev = .ok true ↔ ev ∈ elts.map queue.ev := by
  rw [isQueue.isset_eq, Except.ok.injEq, decide_eq_true_eq]

theorem Move.armed_kept (move : Move config HasMemory m m') (sound : Sound config m)
    (armed : Armed m) : Armed m' := by
  cases move with
  | started _ _ _ isNormal _ _ _ => exact fun halted => absurd isNormal halted
  | buried _ _ =>
      intro halted positive
      apply armed halted
      change 0 < m.runningChildren - 1 at positive
      omega
  | @armed _ arm state signal sec memory _ sets =>
      rcases sound.timers with ⟨elts, isQueue⟩
      have withState : Queue
          { m with fpmState := state, fpmSignalSent := some signal }.timer elts := isQueue
      rcases timeoutSet_spec withState sec arm with ⟨queue, elts', data, result, isQueue', events, _⟩
      cases sets.symm.trans result
      intro _ _
      apply isQueue'.isset_true.mpr
      rw [events]
      have memory : arm.memory = true := memory
      split
      · next present => simpa [memory] using present
      · exact List.mem_cons_self
  | raised state _ alone =>
      intro _ positive
      change 0 < m.runningChildren at positive
      omega
  | touched same state timer =>
      intro halted positive
      rw [timer]
      exact armed (state ▸ halted) (same.running ▸ positive)

theorem Moves.armed_kept (moves : Moves config HasMemory m m') (sound : Sound config m)
    (armed : Armed m) : Armed m' := by
  induction moves with
  | refl => exact armed
  | tail earlier move induction => exact move.armed_kept (Moves.sound earlier sound) induction

/-- The queue `m'` has the elements `elts` of `m` at its end. -/
def Extends (m m' : Master) (elts : List Nat) : Prop :=
  ∃ front, Queue m'.timer (front ++ elts) ∧ ∀ elt ∈ elts, m'.timer.ev elt = m.timer.ev elt

theorem Move.extends_queue (move : Move config allowed m m') (isQueue : Queue m.timer elts) :
    Extends m m' elts := by
  have same : Extends m m elts := ⟨[], isQueue, fun _ _ => rfl⟩
  cases move with
  | started _ _ _ _ _ _ _ => exact same
  | buried _ _ => exact same
  | @armed _ arm state signal sec _ _ sets =>
      have withState : Queue
          { m with fpmState := state, fpmSignalSent := some signal }.timer elts := isQueue
      rcases timeoutSet_spec withState sec arm with
        ⟨queue, elts', data, result, isQueue', _, kept, front, rfl⟩
      cases sets.symm.trans result
      exact ⟨front, isQueue', kept⟩
  | raised _ _ _ => exact same
  | touched _ _ timer =>
      refine ⟨[], ?_, fun elt _ => by rw [timer]⟩
      rw [timer]
      exact isQueue

theorem Moves.extends_queue (moves : Moves config allowed m m') (isQueue : Queue m.timer elts) :
    Extends m m' elts := by
  induction moves with
  | refl => exact ⟨[], isQueue, fun _ _ => rfl⟩
  | tail _ move induction =>
      rcases induction with ⟨front, isQueue', kept⟩
      rcases move.extends_queue isQueue' with ⟨more, isQueue'', keptMore⟩
      refine ⟨more ++ front, by rwa [List.append_assoc], fun elt member => ?_⟩
      exact (keptMore elt (List.mem_append_right _ member)).trans (kept elt member)

/-! ### A round of the loop over the timers -/

section Round

variable {before rest : List Nat} {q now : Nat}

/-- The round takes the element out of the queue or leaves the queue as it is. -/
theorem afterCallback_spec (isQueue : Queue m.timer (before ++ q :: rest)) (now : Nat) :
    (afterCallback now q m).2 = rest.head? ∧ SameAccounts m (afterCallback now q m).1 ∧
      (afterCallback now q m).1.fpmState = m.fpmState ∧
      (afterCallback now q m).1.timer =
        if (m.event (m.timer.ev q)).persist then m.timer else m.timer.remove q := by
  have isNext := isQueue.segment.next_eq
  simp only [afterCallback]
  split
  · exact ⟨isNext, { SameAccounts.refl m with }, rfl, rfl⟩
  · exact ⟨isNext, { SameAccounts.refl m with }, rfl, rfl⟩

theorem afterCallback_queue (isQueue : Queue m.timer (before ++ q :: rest)) (now : Nat) :
    ∃ before', Queue (afterCallback now q m).1.timer (before' ++ rest) ∧
      ∀ ev, ev ≠ m.timer.ev q → m.timer.isset ev = .ok true →
        (afterCallback now q m).1.timer.isset ev = .ok true := by
  rw [(afterCallback_spec isQueue now).2.2.2]
  split
  · exact ⟨before ++ [q], by simpa using isQueue, fun _ _ => id⟩
  · refine ⟨before, isQueue.remove, fun ev different isSet => ?_⟩
    apply isQueue.remove.isset_true.mpr
    have present := isQueue.isset_true.mp isSet
    simp only [List.map_append, List.map_cons, List.mem_append, List.mem_cons, different,
      false_or] at present
    simpa [EventQueue.remove] using present

theorem afterCallback_sound (isQueue : Queue m.timer (before ++ q :: rest))
    (sound : Sound config m) (now : Nat) : Sound config (afterCallback now q m).1 := by
  rcases sound.accounts with ⟨children, accounts⟩
  rcases afterCallback_queue isQueue now with ⟨before', isQueue', _⟩
  exact ⟨⟨children, accounts.transfer (afterCallback_spec isQueue now).2.1⟩, ⟨_, isQueue'⟩⟩

/-- A timer callback that sets the timer again: the event is queued behind the round exactly
when it was set with `FPM_EV_PERSIST`. -/
theorem checkTimer_rearmed {callback : Master → TimerEvent → Run Master} {changed : Master}
    {persist : Bool} {frequency : Nat} {arm : Arm} (isQueue : Queue m.timer elts)
    (member : q ∈ elts) (due : (m.event (m.timer.ev q)).timeout ≤ now)
    (timer : changed.timer = m.timer)
    (rearms : callback m (m.timer.ev q) = fpmEventAdd
      (fpmEventSetTimer changed (m.timer.ev q) persist) (m.timer.ev q) frequency arm) :
    ∃ m' next, checkTimer callback now m q = .ok (m', next) ∧
      m'.timer.isset (m.timer.ev q) = .ok persist := by
  have present : m.timer.ev q ∈ elts.map m.timer.ev := List.mem_map_of_mem member
  have stays : m.timer.add (m.timer.ev q) arm.memory = .ok m.timer := by
    simp only [EventQueue.add, isQueue.isset_eq, present, decide_true, bind, Except.bind, if_true]
    rfl
  have returns : ∃ m₁, callback m (m.timer.ev q) = .ok m₁ ∧ m₁.timer = m.timer ∧
      (m₁.event (m.timer.ev q)).persist = persist := by
    rw [rearms]
    simp only [fpmEventAdd, fpmEventSetTimer, timer, stays, bind, Except.bind]
    exact ⟨_, rfl, rfl, by simp⟩
  rcases returns with ⟨m₁, called, sameTimer, flag⟩
  rcases List.append_of_mem member with ⟨before, rest, rfl⟩
  refine ⟨(afterCallback now q m₁).1, (afterCallback now q m₁).2, ?_, ?_⟩
  · simp only [checkTimer, due, if_true, called]
    rfl
  · rw [← sameTimer] at isQueue flag present ⊢
    rw [(afterCallback_spec isQueue now).2.2.2, flag]
    cases persist with
    | true => exact isQueue.isset_true.mpr present
    | false =>
        have distinct := isQueue.distinct
        rw [List.map_append, List.map_cons, List.nodup_middle, List.nodup_cons] at distinct
        have absent : m₁.timer.ev q ∉ (before ++ rest).map (m₁.timer.remove q).ev := by
          rw [List.map_append]
          exact distinct.1
        simp only [Bool.false_eq_true, if_false]
        rw [isQueue.remove.isset_eq, decide_eq_false absent]

end Round

/-! ### Whole runs -/

/-- The condition of a step: `malloc` does not fail for the escalation timer, and this timer is
not found due while children are running. -/
def Keeps (loop : Loop) : LoopStep → Prop
  | .callback handler => ∀ arm ∈ handler.arms, HasMemory arm
  | .check now _ => ∀ q, loop.phase = .timers (some q) →
      loop.master.timer.ev q = .pctlEvent → (loop.master.event .pctlEvent).timeout ≤ now →
      loop.master.runningChildren = 0
  | .wake | .again => True

structure LoopSound (config : Config) (loop : Loop) : Prop where
  sound : Sound config loop.master
  armed : Armed loop.master
  position : ∀ q, loop.phase = .timers q →
    ∃ before rest, Queue loop.master.timer (before ++ rest) ∧ q = rest.head?

/-- Without children the escalation timer ends the process, or the state is normal. -/
theorem pctlTimeout_alone (sound : Sound config m) (alone : m.runningChildren = 0) (arm : Arm) :
    Ends (handle config m (.pctlTimeout arm))
      (fun m' => Moves config (fun _ => True) m m' ∧ m'.fpmState = .normal) fun _ => True := by
  by_cases isNormal : m.fpmState = .normal
  · rcases sound.timers with ⟨elts, isQueue⟩
    have returns : fpmPctlActionLast m = .ok m := by
      simp [fpmPctlActionLast, isNormal]
    simp only [handle, fpmPctl, fpmPctlActionNext, alone, if_true, returns]
    change Ends (fpmPctlSignalNext config arm m) _ _
    unfold fpmPctlSignalNext
    cases nextSignal config m with
    | mk sig timeout =>
        have withState : Queue { m with fpmSignalSent := some sig }.timer elts := isQueue
        rcases timeoutSet_spec withState timeout arm with ⟨queue, _, data, sets, _⟩
        have move : Move config (fun _ => True) m _ :=
          .armed m.fpmState sig timeout trivial (Or.inl rfl) sets
        simp only [sets]
        exact ⟨ReflTransGen.single move, isNormal⟩
  · simp only [handle, fpmPctl, fpmPctlActionNext, alone, if_true]
    have stops : Ends (fpmPctlActionLast m) (fun _ => False)
        fun m' => Moves config (fun _ => True) m m' ∧ m'.runningChildren = 0 :=
      actionLast_stops isNormal alone
    exact Ends.bind (stops.mono (fun _ => id) fun _ _ => trivial) fun _ => False.elim

/-- The callback of a timer that is due, under the condition of the step. -/
theorem timerCallback_keeps (sound : Sound config m) (armed : Armed m) (env : TimerEnv)
    (ev : TimerEvent) (spared : ev = .pctlEvent → m.runningChildren = 0) :
    Ends (timerCallback config env m ev)
      (fun m' => Moves config (fun _ => True) m m' ∧ Armed m' ∧
        (ev = .pctlEvent → m'.fpmState = .normal)) fun _ => True := by
  have others (handler : Handler) (noArms : handler.arms = []) (different : ev ≠ .pctlEvent) :
      Ends (handle config m handler)
        (fun m' => Moves config (fun _ => True) m m' ∧ Armed m' ∧
          (ev = .pctlEvent → m'.fpmState = .normal)) fun _ => True := by
    have handles : Handles config HasMemory m (handle config m handler) :=
      handle_handles sound handler (by simp [noArms])
    apply Ends.mono handles _ fun _ _ => trivial
    intro m' moves
    exact ⟨Moves.mono moves fun _ _ => trivial, Moves.armed_kept moves sound armed,
      fun equal => absurd equal different⟩
  cases ev with
  | pctlEvent =>
      exact (pctlTimeout_alone sound (spared rfl) env.arm).mono
        (fun m' result => ⟨result.1, fun halted => absurd result.2 halted, fun _ => result.2⟩)
        fun _ => id
  | idleMaintenance => exact others (.idleMaintenance env.tick) rfl nofun
  | heartbeat => exact others .heartbeat rfl nofun
  | systemdHeartbeat => exact ⟨ReflTransGen.refl, armed, nofun⟩

theorem checkTimer_keeps {before rest : List Nat} {q now : Nat} (sound : Sound config m)
    (armed : Armed m) (isQueue : Queue m.timer (before ++ q :: rest)) (env : TimerEnv)
    (spared : m.timer.ev q = .pctlEvent → (m.event .pctlEvent).timeout ≤ now →
      m.runningChildren = 0) :
    Ends (checkTimer (timerCallback config env) now m q)
      (fun result => LoopSound config { master := result.1, phase := .timers result.2 })
      fun _ => True := by
  simp only [checkTimer]
  split
  · next due =>
    apply Ends.bind (timerCallback_keeps sound armed env (m.timer.ev q)
      fun equal => spared equal (equal ▸ due))
    intro m₁ called
    have soundAfter := Moves.sound called.1 sound
    rcases Moves.extends_queue called.1 isQueue with ⟨front, isQueue', kept⟩
    have sameEvent := kept q (List.mem_append_right _ List.mem_cons_self)
    rw [← List.append_assoc] at isQueue'
    have spec := afterCallback_spec isQueue' now
    rcases afterCallback_queue isQueue' now with ⟨before', removed, others⟩
    refine ⟨afterCallback_sound isQueue' soundAfter now, ?_, ?_⟩
    · intro halted positive
      change (afterCallback now q m₁).1.fpmState ≠ .normal at halted
      change 0 < (afterCallback now q m₁).1.runningChildren at positive
      rw [spec.2.2.1] at halted
      rw [spec.2.1.running] at positive
      -- the escalation timer itself was called in the normal state only
      have different : TimerEvent.pctlEvent ≠ m₁.timer.ev q := by
        rw [sameEvent]
        exact fun equal => halted (called.2.2 equal.symm)
      exact others .pctlEvent different (called.2.1 halted positive)
    · rintro _ ⟨rfl⟩
      exact ⟨before', rest, removed, spec.1⟩
  · refine ⟨sound, armed, ?_⟩
    rintro _ ⟨rfl⟩
    exact ⟨before ++ [q], rest, by simpa using isQueue, isQueue.segment.next_eq⟩

theorem loopStep_keeps {loop : Loop} (loopSound : LoopSound config loop) (step : LoopStep)
    (keeps : Keeps loop step) :
    Ends (loopStep config loop step) (LoopSound config) fun _ => True := by
  have unchanged : Ends (.ok loop) (LoopSound config) fun _ => True := loopSound
  unfold loopStep
  split
  · next handler phase =>
    split
    · have handles : Handles config HasMemory loop.master (handle config loop.master handler) :=
        handle_handles loopSound.sound handler keeps
      apply Ends.bind (Ends.mono handles (fun _ => id) fun _ _ => trivial)
      intro m₁ moves
      refine ⟨Moves.sound moves loopSound.sound,
        Moves.armed_kept moves loopSound.sound loopSound.armed, ?_⟩
      intro q other
      change loop.phase = _ at other
      rw [phase] at other
      cases other
    · exact unchanged
  · refine ⟨loopSound.sound, loopSound.armed, ?_⟩
    rintro _ ⟨rfl⟩
    rcases loopSound.sound.timers with ⟨elts, isQueue⟩
    exact ⟨[], elts, isQueue, isQueue.head⟩
  · next now env q phase =>
    rcases loopSound.position _ phase with ⟨before, rest, isQueue, head⟩
    cases rest with
    | nil => cases head
    | cons first rest =>
        have same : q = first := Option.some.inj head
        subst same
        apply Ends.bind (checkTimer_keeps loopSound.sound loopSound.armed isQueue env
          (keeps q phase))
        exact fun _ => id
  · refine ⟨loopSound.sound, loopSound.armed, ?_⟩
    intro q other
    cases other
  · exact unchanged

theorem runLoop_keeps (steps : List LoopStep) :
    ∀ {loop : Loop}, LoopSound config loop →
      (∀ done step rest, steps = done ++ step :: rest → ∀ reached,
        runLoop config loop done = .ok reached → Keeps reached step) →
      Ends (runLoop config loop steps) (LoopSound config) fun _ => True := by
  induction steps with
  | nil => exact fun loopSound _ => loopSound
  | cons step steps induction =>
      intro loop loopSound keeps
      have first := loopStep_keeps loopSound step (keeps [] step steps rfl loop rfl)
      unfold runLoop
      cases result : loopStep config loop step with
      | error stop =>
          rw [result] at first
          cases stop with
          | exit _ => trivial
          | exec _ => trivial
          | stuck => exact first
      | ok next =>
          rw [result] at first
          apply induction first
          intro done later rest equal reached runs
          apply keeps (step :: done) later rest (by rw [equal]; rfl) reached
          rw [runLoop, result]
          exact runs

/-- The timers that the loop starts with leave the escalation timer alone. -/
theorem addPersistent_keeps (sound : Sound config m) (armed : Armed m) (ev : TimerEvent)
    (frequency : Nat) (arm : Arm) :
    ∃ m', addPersistent m ev frequency arm = .ok m' ∧ Sound config m' ∧ Armed m' := by
  unfold addPersistent
  split
  · exact ⟨m, rfl, sound, armed⟩
  · rcases sound.accounts with ⟨children, accounts⟩
    rcases sound.timers with ⟨elts, isQueue⟩
    rcases isQueue.add ev arm.memory with ⟨queue, elts', adds, isQueue', events, _⟩
    have returns : ∃ event, fpmEventAdd (fpmEventSetTimer m ev true) ev frequency arm =
        .ok { m with event := event, timer := queue } := by
      simp only [fpmEventAdd, fpmEventSetTimer, adds, bind, Except.bind]
      exact ⟨_, rfl⟩
    rcases returns with ⟨event, returns⟩
    refine ⟨_, returns, ⟨⟨children, ?_⟩, ⟨elts', isQueue'⟩⟩, ?_⟩
    · exact accounts.transfer (sameAccounts_timer m m.fpmState m.fpmSignalSent event queue)
    · intro halted positive
      apply isQueue'.isset_true.mpr
      rw [events]
      exact List.mem_append_right _ (isQueue.isset_true.mp (armed halted positive))

theorem startLoop_keeps (sound : Sound config m) (armed : Armed m) (heartbeat systemd : Nat)
    (arms : TimerEvent → Arm) :
    ∃ loop, startLoop m heartbeat systemd arms = .ok loop ∧ LoopSound config loop := by
  rcases addPersistent_keeps sound armed .heartbeat
    (if heartbeat = 0 then 0 else max heartbeat 130) (arms .heartbeat) with
    ⟨m₁, adds₁, sound₁, armed₁⟩
  rcases addPersistent_keeps sound₁ armed₁ .idleMaintenance
    (if !fpmPctlCanSpawnChildren m₁ then 0 else 1000) (arms .idleMaintenance) with
    ⟨m₂, adds₂, sound₂, armed₂⟩
  rcases addPersistent_keeps sound₂ armed₂ .systemdHeartbeat
    (if !fpmPctlCanSpawnChildren m₁ then 0 else systemd) (arms .systemdHeartbeat) with
    ⟨m₃, adds₃, sound₃, armed₃⟩
  refine ⟨{ master := m₃, phase := .waiting }, ?_, sound₃, armed₃, nofun⟩
  simp only [startLoop, adds₁, adds₂, adds₃, bind, Except.bind]
  rfl

/-- In a run in which the escalation timer is never found due while children are running, it
stays queued for as long as there are children to be stopped. A timer whose callback sets it
again is lost in the round that calls it, unless it is set with `FPM_EV_PERSIST`. -/
theorem escalation_timer_queued (config : Config)
    (startable : ∀ poolConfig ∈ config.pools,
      poolConfig.pmStartServers ≤ poolConfig.pmMaxChildren) (m : Master)
    (inits : fpmInit config = some m) (arm : Arm) (memory : HasMemory arm)
    (spawn : Nat → Nat → Spawn) (heartbeat systemd : Nat) (arms : TimerEvent → Arm)
    (steps : List LoopStep)
    (keeps : ∀ done step rest, steps = done ++ step :: rest → ∀ loop,
      runMaster config m arm spawn heartbeat systemd arms done = .ok loop → Keeps loop step) :
    Ends (runMaster config m arm spawn heartbeat systemd arms steps)
      (fun loop => loop.master.fpmState ≠ .normal → 0 < loop.master.runningChildren →
        loop.master.timer.isset .pctlEvent = .ok true) (fun _ => True) ∧
    ∀ (loop : Loop), runMaster config m arm spawn heartbeat systemd arms steps = .ok loop →
      ∀ (q now : Nat) (callback : Master → TimerEvent → Run Master) (changed : Master)
        (persist : Bool) (frequency : Nat) (again : Arm),
      loop.phase = .timers (some q) →
      (loop.master.event (loop.master.timer.ev q)).timeout ≤ now →
      changed.timer = loop.master.timer →
      callback loop.master (loop.master.timer.ev q) = fpmEventAdd
        (fpmEventSetTimer changed (loop.master.timer.ev q) persist) (loop.master.timer.ev q)
        frequency again →
      ∃ m' next, checkTimer callback now loop.master q = .ok (m', next) ∧
        (m'.timer.isset (loop.master.timer.ev q) = .ok true ↔ persist = true) := by
  have sound := fpmInit_sound inits
  have isNormal : m.fpmState = .normal := by
    simp only [fpmInit, Option.ite_none_right_eq_some, Option.some.injEq] at inits
    rw [← inits.2]
  have armed : Armed m := fun halted => absurd isNormal halted
  have created : Handles config HasMemory m (createInitial config arm spawn 0 config.pools m) :=
    createInitial_handles arm spawn memory startable config.pools rfl sound
  have runs : Ends (runMaster config m arm spawn heartbeat systemd arms steps)
      (LoopSound config) fun _ => True := by
    cases result : createInitial config arm spawn 0 config.pools m with
    | error stop =>
        rw [result] at created
        simp only [runMaster, result, bind, Except.bind]
        cases stop with
        | exit _ => trivial
        | exec _ => trivial
        | stuck => exact created
    | ok m₁ =>
        rw [result] at created
        have soundCreated := Moves.sound created sound
        rcases startLoop_keeps soundCreated (Moves.armed_kept created sound armed) heartbeat systemd
          arms with ⟨loop, starts, loopSound⟩
        have unfolded (some : List LoopStep) :
            runMaster config m arm spawn heartbeat systemd arms some = runLoop config loop some := by
          simp only [runMaster, result, starts, bind, Except.bind]
        rw [unfolded]
        apply runLoop_keeps steps loopSound
        intro done step rest equal reached reaches
        exact keeps done step rest equal reached (unfolded done ▸ reaches)
  constructor
  · exact runs.mono (fun loop loopSound => loopSound.armed) fun _ => id
  · intro loop reaches q now callback changed persist frequency again phase due timer rearms
    rw [reaches] at runs
    have loopSound : LoopSound config loop := runs
    rcases loopSound.position _ phase with ⟨before, rest, isQueue, head⟩
    have member : q ∈ before ++ rest := List.mem_append_right _ (List.mem_of_head? head.symm)
    rcases checkTimer_rearmed isQueue member due timer rearms with ⟨m', next, checks, isSet⟩
    refine ⟨m', next, checks, ?_⟩
    rw [isSet, Except.ok.injEq]

/-- The master of `smallConfig`, whose one child does not react to the signals. -/
def stubbornRun (m : Master) (steps : List LoopStep) : Run Loop :=
  runMaster smallConfig m ⟨0, true⟩ (fun _ round => .forked (100 + round) 0) 0 0
    (fun _ => ⟨0, true⟩) steps

/-- A timer callback at the time `now` at which all children are busy. -/
def busyAt (now : Nat) : TimerEnv :=
  { arm := ⟨now, true⟩, tick := ⟨fun _ => false, fun _ => 0, 0, fun _ _ => .forkFailed⟩ }

theorem escalation_timer_queued_early :
    ∃ m, fpmInit smallConfig = some m ∧
      Ends (stubbornRun m [.callback (.sigquit ⟨0, true⟩), .wake, .check 5000000 (busyAt 5000000)])
        (fun loop => loop.master.fpmState ≠ .normal → 0 < loop.master.runningChildren →
          loop.master.timer.isset .pctlEvent = .ok true) (fun _ => True) := by
  refine ⟨_, rfl, (escalation_timer_queued smallConfig (by decide) _ rfl ⟨0, true⟩ rfl _ 0 0 _ _
    ?_).1⟩
  intro done step rest equal loop reaches
  match done with
  | [] =>
      cases equal
      exact fun arm member => by rw [List.mem_singleton.mp member]; rfl
  | [_] =>
      cases equal
      trivial
  | [_, _] =>
      cases equal
      cases reaches
      intro q _ _ due
      exact absurd due (by decide +kernel)
  | _ :: _ :: _ :: _ =>
      simp at equal

/-- The child ignores SIGQUIT; after ten seconds the timer is called, sets itself again, and is
taken out of the queue. -/
theorem escalation_timer_lost :
    ∃ m, fpmInit smallConfig = some m ∧ ∃ loop,
      stubbornRun m [.callback (.sigquit ⟨0, true⟩), .wake, .check 10000000 (busyAt 10000000),
        .check 10000001 (busyAt 10000001)] = .ok loop ∧
      loop.phase = .timers none ∧ loop.master.fpmState = .finishing ∧
      loop.master.runningChildren = 1 ∧ loop.master.timer.isset .pctlEvent = .ok false :=
  ⟨_, rfl, _, rfl, rfl, rfl, rfl, rfl⟩

end PhpRuntime.Fpm
