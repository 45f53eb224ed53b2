import PhpRuntime.Fpm.Master

/-! # The accounts of the master

The lists of children, the counters and the scoreboard slots agree. The operations that
change them are the start of a child and the burial of one.
-/

namespace PhpRuntime.Fpm

open Function Linked

/-! ### Slots -/

/-- The used slots of a scoreboard are exactly the given ones. -/
structure Slots (scoreboard : Scoreboard) (slots : List Int) : Prop where
  inside : ∀ slot ∈ slots, 0 ≤ slot ∧ slot < scoreboard.nprocs
  distinct : slots.Nodup
  used : ∀ i : Nat, i < scoreboard.nprocs → (scoreboard.used i = true ↔ (i : Int) ∈ slots)

variable {scoreboard : Scoreboard} {slots : List Int}

def usedSlots (scoreboard : Scoreboard) : List Nat :=
  (List.range scoreboard.nprocs).filter fun i => scoreboard.used i

theorem Slots.count (accounted : Slots scoreboard slots) :
    (usedSlots scoreboard).length = slots.length := by
  have same : ((usedSlots scoreboard).map fun i : Nat => (i : Int)).Perm slots := by
    apply (List.perm_ext_iff_of_nodup _ accounted.distinct).mpr
    · intro slot
      simp only [usedSlots, List.mem_map, List.mem_filter, List.mem_range]
      constructor
      · rintro ⟨i, ⟨inside, used⟩, rfl⟩
        exact (accounted.used i inside).mp used
      · intro member
        have bounds := accounted.inside slot member
        have back : (slot.toNat : Int) = slot := Int.toNat_of_nonneg bounds.1
        refine ⟨slot.toNat, ⟨by omega, (accounted.used _ (by omega)).mpr ?_⟩, back⟩
        rwa [back]
    · exact (List.nodup_range.filter _).map fun _ _ equal => Int.ofNat.inj equal
  simpa using same.length_eq

theorem freeSlot_spec {i : Nat} (found : freeSlot scoreboard = some i) :
    i < scoreboard.nprocs ∧ scoreboard.used i = false := by
  unfold freeSlot at found
  split at found
  · next supposed =>
    cases found
    exact ⟨by omega, supposed.2.2⟩
  · have accepted := List.find?_some found
    have member := List.mem_of_find?_eq_some found
    exact ⟨List.mem_range.mp member, by simpa using accepted⟩

theorem procAlloc_spec {result : Scoreboard} {i : Nat}
    (allocates : procAlloc scoreboard = some (result, i)) :
    i < scoreboard.nprocs ∧ scoreboard.used i = false ∧
      result.nprocs = scoreboard.nprocs ∧ result.used = update scoreboard.used i true := by
  simp only [procAlloc, Option.map_eq_some_iff, Prod.mk.injEq] at allocates
  rcases allocates with ⟨slot, found, rfl, rfl⟩
  have spec := freeSlot_spec found
  exact ⟨spec.1, spec.2, rfl, rfl⟩

theorem Slots.alloc (accounted : Slots scoreboard slots) {result : Scoreboard} {i : Nat}
    (allocates : procAlloc scoreboard = some (result, i)) :
    Slots result ((i : Int) :: slots) := by
  rcases procAlloc_spec allocates with ⟨inside, free, nprocs, used⟩
  have absent : (i : Int) ∉ slots := fun member => by
    rw [← accounted.used i inside, free] at member
    cases member
  constructor
  · intro slot member
    rw [nprocs]
    rcases List.mem_cons.mp member with equal | member
    · omega
    · exact accounted.inside slot member
  · exact List.nodup_cons.mpr ⟨absent, accounted.distinct⟩
  · intro j jInside
    rw [nprocs] at jInside
    rw [used, List.mem_cons]
    by_cases same : j = i
    · subst same
      simp
    · have different : (j : Int) ≠ i := by omega
      rw [update_of_ne same, accounted.used j jInside]
      simp [different]

theorem Slots.free (accounted : Slots scoreboard slots) {slot : Int} (member : slot ∈ slots) :
    Slots (procFree scoreboard slot) (slots.erase slot) := by
  have bounds := accounted.inside slot member
  have back : (slot.toNat : Int) = slot := Int.toNat_of_nonneg bounds.1
  rw [procFree, if_neg (by omega)]
  constructor
  · intro other otherMember
    exact accounted.inside other (List.mem_of_mem_erase otherMember)
  · exact accounted.distinct.erase slot
  · intro j inside
    rw [accounted.distinct.mem_erase_iff]
    change update scoreboard.used slot.toNat false j = true ↔ _
    by_cases same : j = slot.toNat
    · subst same
      simp [back]
    · rw [update_of_ne same, accounted.used j inside]
      have different : (j : Int) ≠ slot := by omega
      simp [different]

/-- A slot that is taken and given back leaves the others as they were. -/
theorem procFree_procAlloc {result : Scoreboard} {i : Nat}
    (allocates : procAlloc scoreboard = some (result, i)) :
    (procFree result i).nprocs = scoreboard.nprocs ∧ (procFree result i).used = scoreboard.used := by
  rcases procAlloc_spec allocates with ⟨inside, free, nprocs, used⟩
  rw [procFree, if_neg (by omega)]
  refine ⟨nprocs, ?_⟩
  change update result.used (i : Int).toNat false = scoreboard.used
  rw [used, Int.toNat_natCast, update_idem, ← free, update_eq_self]

/-! ### Accounts -/

/-- The children of one pool, and what the master records about them. -/
structure PoolAccounts (m : Master) (wp : Nat) (list : List Nat) : Prop where
  segment : Segment m.next m.prev none list none
  head : (m.pool wp).children = list.head?
  nodup : list.Nodup
  owner : ∀ c ∈ list, (m.child c).wp = wp
  fresh : ∀ c ∈ list, c < m.allocated
  running : (m.pool wp).runningChildren = list.length
  slots : Slots (m.pool wp).scoreboard (list.map fun c => (m.child c).scoreboardI)

/-- The accounts of all pools. -/
structure Accounts (config : Config) (m : Master) (children : Nat → List Nat) : Prop where
  pools : ∀ wp, PoolAccounts m wp (children wp)
  bounded : ∀ wp poolConfig, config.pools[wp]? = some poolConfig →
    (m.pool wp).runningChildren ≤ poolConfig.pmMaxChildren ∧
      (m.pool wp).scoreboard.nprocs = poolConfig.pmMaxChildren.toNat
  outside : ∀ wp, config.pools.length ≤ wp → children wp = []
  total : m.runningChildren =
    ((List.range config.pools.length).map fun wp => (m.pool wp).runningChildren).sum
  limited : 0 < config.processMax → m.runningChildren ≤ config.processMax
  forks : ∀ state ∈ m.forks, state = .normal

/-- The two states agree in everything the accounts are about. -/
structure SameAccounts (m m' : Master) : Prop where
  running : m'.runningChildren = m.runningChildren
  prev : m'.prev = m.prev
  next : m'.next = m.next
  allocated : m.allocated ≤ m'.allocated
  forks : m'.forks = m.forks
  poolChildren : ∀ wp, (m'.pool wp).children = (m.pool wp).children
  poolRunning : ∀ wp, (m'.pool wp).runningChildren = (m.pool wp).runningChildren
  nprocs : ∀ wp, (m'.pool wp).scoreboard.nprocs = (m.pool wp).scoreboard.nprocs
  used : ∀ wp, (m'.pool wp).scoreboard.used = (m.pool wp).scoreboard.used
  owner : ∀ c, c < m.allocated → (m'.child c).wp = (m.child c).wp
  slot : ∀ c, c < m.allocated → (m'.child c).scoreboardI = (m.child c).scoreboardI

variable {config : Config} {m m' : Master} {children : Nat → List Nat}

theorem Slots.congr {other : Scoreboard} (accounted : Slots scoreboard slots)
    (nprocs : other.nprocs = scoreboard.nprocs) (used : other.used = scoreboard.used) :
    Slots other slots where
  inside slot member := by
    rw [nprocs]
    exact accounted.inside slot member
  distinct := accounted.distinct
  used i inside := by
    rw [used]
    exact accounted.used i (nprocs ▸ inside)

/-- The accounts of a pool depend on its record and on the nodes of its list. -/
theorem PoolAccounts.congr {wp : Nat} {list : List Nat} (accounts : PoolAccounts m wp list)
    (head : (m'.pool wp).children = (m.pool wp).children)
    (running : (m'.pool wp).runningChildren = (m.pool wp).runningChildren)
    (nprocs : (m'.pool wp).scoreboard.nprocs = (m.pool wp).scoreboard.nprocs)
    (used : (m'.pool wp).scoreboard.used = (m.pool wp).scoreboard.used)
    (next : ∀ c ∈ list, m'.next c = m.next c) (prev : ∀ c ∈ list, m'.prev c = m.prev c)
    (owner : ∀ c ∈ list, (m'.child c).wp = (m.child c).wp)
    (slot : ∀ c ∈ list, (m'.child c).scoreboardI = (m.child c).scoreboardI)
    (allocated : m.allocated ≤ m'.allocated) : PoolAccounts m' wp list where
  segment := accounts.segment.congr next prev
  head := head.trans accounts.head
  nodup := accounts.nodup
  owner c member := (owner c member).trans (accounts.owner c member)
  fresh c member := Nat.lt_of_lt_of_le (accounts.fresh c member) allocated
  running := running.trans accounts.running
  slots := by
    rw [List.map_congr_left slot]
    exact accounts.slots.congr nprocs used

theorem Accounts.transfer (accounts : Accounts config m children) (same : SameAccounts m m') :
    Accounts config m' children where
  pools wp := by
    have fresh := (accounts.pools wp).fresh
    apply (accounts.pools wp).congr (same.poolChildren wp) (same.poolRunning wp) (same.nprocs wp)
      (same.used wp)
    · exact fun c _ => congrFun same.next c
    · exact fun c _ => congrFun same.prev c
    · exact fun c member => same.owner c (fresh c member)
    · exact fun c member => same.slot c (fresh c member)
    · exact same.allocated
  bounded wp poolConfig found := by
    rw [same.poolRunning, same.nprocs]
    exact accounts.bounded wp poolConfig found
  outside := accounts.outside
  total := by
    simp only [same.running, same.poolRunning]
    exact accounts.total
  limited := by
    rw [same.running]
    exact accounts.limited
  forks := by
    rw [same.forks]
    exact accounts.forks

/-- A child is in the list of one pool only. -/
theorem Accounts.wp_eq (accounts : Accounts config m children) {wp other c : Nat}
    (member : c ∈ children wp) (otherMember : c ∈ children other) : other = wp :=
  ((accounts.pools other).owner c otherMember).symm.trans ((accounts.pools wp).owner c member)

theorem SameAccounts.refl (m : Master) : SameAccounts m m where
  running := rfl
  prev := rfl
  next := rfl
  allocated := Nat.le_refl _
  forks := rfl
  poolChildren _ := rfl
  poolRunning _ := rfl
  nprocs _ := rfl
  used _ := rfl
  owner _ _ := rfl
  slot _ _ := rfl

/-- A pool whose accounts stay may change otherwise. -/
theorem sameAccounts_setPool (m : Master) {wp : Nat} {pool : Pool}
    (head : pool.children = (m.pool wp).children)
    (running : pool.runningChildren = (m.pool wp).runningChildren)
    (nprocs : pool.scoreboard.nprocs = (m.pool wp).scoreboard.nprocs)
    (used : pool.scoreboard.used = (m.pool wp).scoreboard.used) :
    SameAccounts m (setPool m wp pool) := by
  have lookup {β : Type} (field : Pool → β) (equal : field pool = field (m.pool wp))
      (other : Nat) : field ((setPool m wp pool).pool other) = field (m.pool other) := by
    by_cases same : other = wp
    · subst same
      simpa [setPool] using equal
    · simp [setPool, same]
  exact { SameAccounts.refl m with
    poolChildren := lookup Pool.children head
    poolRunning := lookup Pool.runningChildren running
    nprocs := lookup (fun pool => pool.scoreboard.nprocs) nprocs
    used := lookup (fun pool => pool.scoreboard.used) used }

theorem sameAccounts_killIdle (m : Master) (c : Nat) : SameAccounts m (killIdle m c) := by
  have lookup {β : Type} (field : Child → β)
      (equal : field { m.child c with idleKill := true } = field (m.child c)) (other : Nat) :
      field ((killIdle m c).child other) = field (m.child other) := by
    by_cases same : other = c
    · subst same
      simpa [killIdle] using equal
    · simp [killIdle, same]
  exact { SameAccounts.refl m with
    owner := fun other _ => lookup Child.wp rfl other
    slot := fun other _ => lookup Child.scoreboardI rfl other }

/-! ### Starting a child -/

theorem sum_range_update (f : Nat → Int) {wp : Nat} (value : Int) :
    ∀ {count : Nat}, wp < count →
      ((List.range count).map fun i => update f wp value i).sum =
        ((List.range count).map f).sum - f wp + value := by
  intro count
  induction count with
  | zero => exact fun below => absurd below (Nat.not_lt_zero wp)
  | succ count induction =>
      intro below
      simp only [List.range_succ, List.map_append, List.map_cons, List.map_nil,
        List.sum_append, List.sum_cons, List.sum_nil]
      by_cases last : wp = count
      · subst last
        have others : ((List.range wp).map fun i => update f wp value i) = (List.range wp).map f :=
          List.map_congr_left fun i member =>
            update_of_ne (Nat.ne_of_lt (List.mem_range.mp member)) _ _
        rw [others, update_self]
        omega
      · rw [induction (by omega), update_of_ne (Ne.symm last)]
        omega

/-- The state behind a successful `fork`. -/
def startedChild (m : Master) (wp : Nat) (scoreboard : Scoreboard) (slot : Int) (pid : Int)
    (started : Nat) : Master :=
  let c := m.allocated
  { m with
    runningChildren := m.runningChildren + 1
    pool := update m.pool wp { m.pool wp with
      scoreboard := scoreboard
      runningChildren := (m.pool wp).runningChildren + 1
      children := some c }
    child := update m.child c
      { wp := wp, pid := pid, idleKill := false, scoreboardI := slot, started := started }
    next := update m.next c (m.pool wp).children
    prev := update (assign m.prev (m.pool wp).children (some c)) c none
    allocated := c + 1
    forks := m.forks ++ [m.fpmState] }

/-- The state behind a failed `fork`: the slot is free again. -/
def discardedChild (m : Master) (wp : Nat) (scoreboard : Scoreboard) (slot : Int) : Master :=
  { setPool m wp { m.pool wp with scoreboard := procFree scoreboard slot } with
    child := update m.child m.allocated
      { wp := wp, pid := 0, idleKill := false, scoreboardI := slot, started := 0 }
    allocated := m.allocated + 1 }

theorem prepare_spec {wp : Nat} {prepared : Master}
    (prepares : fpmResourcesPrepare m wp = some prepared) :
    ∃ scoreboard slot, procAlloc (m.pool wp).scoreboard = some (scoreboard, slot) ∧
      fpmResourcesDiscard prepared m.allocated = discardedChild m wp scoreboard slot ∧
      ∀ pid started, parentForked prepared m.allocated pid started =
        startedChild m wp scoreboard slot pid started := by
  simp only [fpmResourcesPrepare, Option.map_eq_some_iff, Prod.exists] at prepares
  rcases prepares with ⟨scoreboard, slot, allocates, rfl⟩
  refine ⟨scoreboard, slot, allocates, ?_, ?_⟩
  · simp [fpmResourcesDiscard, setScoreboard, discardedChild, setPool]
  · intro pid started
    simp [parentForked, fpmChildLink, setScoreboard, startedChild]

theorem sameAccounts_discarded {wp slot : Nat} {scoreboard : Scoreboard}
    (allocates : procAlloc (m.pool wp).scoreboard = some (scoreboard, slot)) :
    SameAccounts m (discardedChild m wp scoreboard slot) := by
  have restored := procFree_procAlloc allocates
  have pools : SameAccounts m
      (setPool m wp { m.pool wp with scoreboard := procFree scoreboard slot }) :=
    sameAccounts_setPool m rfl rfl restored.1 restored.2
  have older (c : Nat) (below : c < m.allocated) :
      (discardedChild m wp scoreboard slot).child c = m.child c :=
    update_of_ne (Nat.ne_of_lt below) _ _
  exact { pools with
    allocated := Nat.le_succ _
    owner := fun c below => by rw [older c below]
    slot := fun c below => by rw [older c below] }

/-- The list of the pool with a new child in front. -/
theorem PoolAccounts.start {wp slot : Nat} {list : List Nat} {scoreboard : Scoreboard}
    (accounts : PoolAccounts m wp list)
    (allocates : procAlloc (m.pool wp).scoreboard = some (scoreboard, slot)) (pid : Int)
    (started : Nat) :
    PoolAccounts (startedChild m wp scoreboard slot pid started) wp (m.allocated :: list) := by
  have absent : m.allocated ∉ list := fun member => Nat.lt_irrefl _ (accounts.fresh _ member)
  have nodup : (m.allocated :: list).Nodup := List.nodup_cons.mpr ⟨absent, accounts.nodup⟩
  have older (c : Nat) (member : c ∈ list) :
      (startedChild m wp scoreboard slot pid started).child c = m.child c :=
    update_of_ne (Nat.ne_of_lt (accounts.fresh c member)) _ _
  have newest : (startedChild m wp scoreboard slot pid started).child m.allocated =
      { wp := wp, pid := pid, idleKill := false, scoreboardI := slot, started := started } :=
    update_self _ _ _
  have pool : (startedChild m wp scoreboard slot pid started).pool wp =
      { m.pool wp with
        scoreboard := scoreboard
        runningChildren := (m.pool wp).runningChildren + 1
        children := some m.allocated } := update_self _ _ _
  constructor
  · have inserted := Segment.insert m.allocated (segment_nil m.next m.prev none none)
      accounts.segment nodup
    have different : list.head? ≠ some m.allocated := fun equal => absent (List.mem_of_head? equal)
    have order : update (assign m.prev list.head? (some m.allocated)) m.allocated none =
        assign (update m.prev m.allocated none) list.head? (some m.allocated) := by
      cases equal : list.head? with
      | none => rfl
      | some first =>
          have apart : m.allocated ≠ first := fun same => different (same ▸ equal)
          exact (update_comm apart _ _ _).symm
    simp only [startedChild, accounts.head]
    rw [order]
    exact inserted
  · rw [pool]
    rfl
  · exact nodup
  · intro c member
    rcases List.mem_cons.mp member with equal | member
    · rw [equal, newest]
    · rw [older c member]
      exact accounts.owner c member
  · intro c member
    rcases List.mem_cons.mp member with equal | member
    · rw [equal]
      exact Nat.lt_succ_self _
    · exact Nat.lt_succ_of_lt (accounts.fresh c member)
  · have running := accounts.running
    rw [pool, List.length_cons]
    change (m.pool wp).runningChildren + 1 = _
    omega
  · rw [pool, List.map_cons, newest,
      List.map_congr_left fun c member => congrArg Child.scoreboardI (older c member)]
    exact accounts.slots.alloc allocates

theorem Accounts.start (accounts : Accounts config m children) {wp slot : Nat}
    {scoreboard : Scoreboard} {poolConfig : PoolConfig}
    (found : config.pools[wp]? = some poolConfig) (isNormal : m.fpmState = .normal)
    (below : (m.pool wp).runningChildren < poolConfig.pmMaxChildren)
    (allowed : config.processMax < 1 ∨ m.runningChildren < config.processMax)
    (allocates : procAlloc (m.pool wp).scoreboard = some (scoreboard, slot)) (pid : Int)
    (started : Nat) :
    Accounts config (startedChild m wp scoreboard slot pid started)
      (update children wp (m.allocated :: children wp)) := by
  have wpInside : wp < config.pools.length := (List.getElem?_eq_some_iff.mp found).1
  have poolSame : (startedChild m wp scoreboard slot pid started).pool wp =
      { m.pool wp with
        scoreboard := scoreboard
        runningChildren := (m.pool wp).runningChildren + 1
        children := some m.allocated } := update_self _ _ _
  have poolOther (other : Nat) (different : other ≠ wp) :
      (startedChild m wp scoreboard slot pid started).pool other = m.pool other :=
    update_of_ne different _ _
  constructor
  · intro other
    by_cases same : other = wp
    · rw [same, update_self]
      exact (accounts.pools wp).start allocates pid started
    · rw [update_of_ne same]
      have fresh (c : Nat) (member : c ∈ children other) : c ≠ m.allocated :=
        Nat.ne_of_lt ((accounts.pools other).fresh c member)
      -- the first child of the pool, whose `prev` changes, is in no other list
      have notFirst (c : Nat) (member : c ∈ children other) : (m.pool wp).children ≠ some c := by
        rw [(accounts.pools wp).head]
        intro first
        exact same (accounts.wp_eq (List.mem_of_head? first) member)
      have child (c : Nat) (member : c ∈ children other) :
          (startedChild m wp scoreboard slot pid started).child c = m.child c :=
        update_of_ne (fresh c member) _ _
      apply (accounts.pools other).congr
      · rw [poolOther other same]
      · rw [poolOther other same]
      · rw [poolOther other same]
      · rw [poolOther other same]
      · exact fun c member => update_of_ne (fresh c member) _ _
      · intro c member
        exact (update_of_ne (fresh c member) _ _).trans (assign_other (notFirst c member))
      · exact fun c member => congrArg Child.wp (child c member)
      · exact fun c member => congrArg Child.scoreboardI (child c member)
      · exact Nat.le_succ _
  · intro other otherConfig otherFound
    by_cases same : other = wp
    · subst same
      rw [found] at otherFound
      cases otherFound
      have before := accounts.bounded other poolConfig found
      rw [poolSame]
      exact ⟨Int.add_one_le_of_lt below, (procAlloc_spec allocates).2.2.1.trans before.2⟩
    · rw [poolOther other same]
      exact accounts.bounded other otherConfig otherFound
  · intro other outside
    have different : other ≠ wp := by omega
    rw [update_of_ne different]
    exact accounts.outside other outside
  · have running : (fun other => ((startedChild m wp scoreboard slot pid started).pool other).runningChildren) =
        update (fun other => (m.pool other).runningChildren) wp
          ((m.pool wp).runningChildren + 1) := by
      funext other
      by_cases same : other = wp
      · rw [same, poolSame, update_self]
      · rw [poolOther other same, update_of_ne same]
    rw [running]
    change m.runningChildren + 1 = _
    have sum := sum_range_update (fun other => (m.pool other).runningChildren)
      ((m.pool wp).runningChildren + 1) wpInside
    rw [sum, accounts.total]
    omega
  · intro set
    change m.runningChildren + 1 ≤ _
    omega
  · intro state member
    change state ∈ m.forks ++ [m.fpmState] at member
    rcases List.mem_append.mp member with earlier | last
    · exact accounts.forks state earlier
    · rw [List.mem_singleton.mp last]
      exact isNormal

/-! ### Burying a child -/

/-- The state behind `fpm_child_unlink` and `fpm_scoreboard_proc_free`. -/
def buriedChild (m : Master) (c : Nat) : Master :=
  let wp := (m.child c).wp
  let unlinked := fpmChildUnlink m c
  setScoreboard unlinked wp (procFree (unlinked.pool wp).scoreboard (m.child c).scoreboardI)

variable {wp c : Nat}

theorem buriedChild_pool (owner : (m.child c).wp = wp) :
    (buriedChild m c).pool = update m.pool wp
      { m.pool wp with
        runningChildren := (m.pool wp).runningChildren - 1
        children := if (m.prev c).isSome then (m.pool wp).children else m.next c
        scoreboard := procFree (m.pool wp).scoreboard (m.child c).scoreboardI } := by
  subst owner
  simp [buriedChild, fpmChildUnlink, setScoreboard]

theorem PoolAccounts.bury {list : List Nat} (accounts : PoolAccounts m wp list)
    (member : c ∈ list) : PoolAccounts (buriedChild m c) wp (list.erase c) := by
  have owner := accounts.owner c member
  have pool : (buriedChild m c).pool wp = _ :=
    (congrFun (buriedChild_pool owner) wp).trans (update_self _ _ _)
  rcases List.append_of_mem member with ⟨front, back, rfl⟩
  have nodup := accounts.nodup
  have notInFront : c ∉ front := fun inFront =>
    (List.nodup_append.mp nodup).2.2 c inFront c List.mem_cons_self rfl
  have erased : (front ++ c :: back).erase c = front ++ back := by
    rw [List.erase_append_right _ notInFront, List.erase_cons_head]
  have sublist : (front ++ back).Sublist (front ++ c :: back) :=
    List.Sublist.append_left (List.sublist_cons_self _ _) _
  rw [erased]
  constructor
  · exact accounts.segment.unlink nodup
  · rw [pool]
    change (if (m.prev c).isSome then (m.pool wp).children else m.next c) = _
    rw [accounts.segment.prev_eq, accounts.segment.next_eq, accounts.head]
    cases front with
    | nil => rfl
    | cons first front => simp
  · exact nodup.sublist sublist
  · exact fun other otherMember => accounts.owner other (sublist.subset otherMember)
  · exact fun other otherMember => accounts.fresh other (sublist.subset otherMember)
  · have running := accounts.running
    rw [pool]
    simp only [List.length_append, List.length_cons] at running ⊢
    omega
  · rw [pool]
    have slots := accounts.slots
    rw [List.map_append, List.map_cons] at slots
    have notInFront : (m.child c).scoreboardI ∉ front.map fun c => (m.child c).scoreboardI :=
      fun inFront => (List.nodup_append.mp slots.distinct).2.2 _ inFront _ List.mem_cons_self rfl
    have freed := slots.free (List.mem_append_right _ List.mem_cons_self)
    rw [List.erase_append_right _ notInFront, List.erase_cons_head, ← List.map_append] at freed
    exact freed

theorem Accounts.bury (accounts : Accounts config m children) (member : c ∈ children wp) :
    Accounts config (buriedChild m c) (update children wp ((children wp).erase c)) := by
  have owner := (accounts.pools wp).owner c member
  have pools := buriedChild_pool owner
  have poolSame := (congrFun pools wp).trans (update_self _ _ _)
  have poolOther (other : Nat) (different : other ≠ wp) :
      (buriedChild m c).pool other = m.pool other :=
    (congrFun pools other).trans (update_of_ne different _ _)
  have wpInside : wp < config.pools.length := by
    apply Nat.lt_of_not_le
    intro outside
    rw [accounts.outside wp outside] at member
    cases member
  have running : (fun other => ((buriedChild m c).pool other).runningChildren) =
      update (fun other => (m.pool other).runningChildren) wp
        ((m.pool wp).runningChildren - 1) := by
    funext other
    by_cases same : other = wp
    · rw [same, poolSame, update_self]
    · rw [poolOther other same, update_of_ne same]
  constructor
  · intro other
    by_cases same : other = wp
    · rw [same, update_self]
      exact (accounts.pools wp).bury member
    · rw [update_of_ne same]
      -- the neighbours of the child are in its own list
      have apart (node : Nat) (inOther : node ∈ children other) : node ∉ children wp :=
        fun inSame => same (accounts.wp_eq inSame inOther)
      have segment := (accounts.pools wp).segment
      apply (accounts.pools other).congr
      · rw [poolOther other same]
      · rw [poolOther other same]
      · rw [poolOther other same]
      · rw [poolOther other same]
      · intro node inOther
        apply assign_other
        intro equal
        exact apart node inOther (segment.prev_mem member equal)
      · intro node inOther
        apply assign_other
        intro equal
        exact apart node inOther (segment.next_mem member equal)
      · exact fun _ _ => rfl
      · exact fun _ _ => rfl
      · exact Nat.le_refl _
  · intro other otherConfig found
    have before := accounts.bounded other otherConfig found
    by_cases same : other = wp
    · subst same
      rw [poolSame]
      refine ⟨?_, ?_⟩
      · change (m.pool other).runningChildren - 1 ≤ _
        omega
      · change (procFree _ _).nprocs = _
        rw [procFree]
        split
        · exact before.2
        · exact before.2
    · rw [poolOther other same]
      exact before
  · intro other outside
    have different : other ≠ wp := by omega
    rw [update_of_ne different]
    exact accounts.outside other outside
  · rw [running]
    change m.runningChildren - 1 = _
    have sum := sum_range_update (fun other => (m.pool other).runningChildren)
      ((m.pool wp).runningChildren - 1) wpInside
    rw [sum, accounts.total]
    omega
  · intro set
    have before := accounts.limited set
    change m.runningChildren - 1 ≤ _
    omega
  · exact accounts.forks

end PhpRuntime.Fpm
