import PhpRuntime.Foundation.Decimal

/-! # Allowed clients

The list of `listen.allowed_clients` as `fcgi_set_allowed_clients` reads it and
`fcgi_is_allowed` uses it. `inet_pton` is given by the addresses that texts denote.
-/

namespace PhpRuntime.FastCgi

open Decimal

/-! ## Addresses -/

/-- An IPv4 address, in network order. -/
def InAddr := { bytes : List UInt8 // bytes.length = 4 }

/-- An IPv6 address, in network order. -/
def In6Addr := { bytes : List UInt8 // bytes.length = 16 }

/-- An element of `allowed_clients`. -/
inductive AllowedClient
  | inet (sinAddr : InAddr)
  | inet6 (sin6Addr : In6Addr)

/-- The address of the peer, as `accept` stores it in `client_sa`. -/
inductive ClientSa
  | unix
  | inet (sinAddr : InAddr)
  | inet6 (sin6Addr : In6Addr)
  | other

/-- `inet_pton` for each of the two families. No text is an address of both. -/
structure InetPton where
  inet : List UInt8 → Option InAddr
  inet6 : List UInt8 → Option In6Addr
  inet6_of_inet : ∀ {text}, (inet text).isSome → inet6 text = none

/-- Whether `memcmp` finds no difference in the first `count` bytes. -/
def memcmpEqual (left right : List UInt8) (count : Nat) : Bool :=
  left.take count == right.take count

/-- The first twelve bytes of an IPv4 address in IPv6. -/
def mappedStart : List UInt8 := List.replicate 10 0 ++ [0xff, 0xff]

/-- `IN6_IS_ADDR_V4MAPPED` -/
def isAddrV4Mapped (address : In6Addr) : Bool := memcmpEqual address.1 mappedStart 12

/-- An IPv4 address as an IPv6 address. -/
def v4Mapped (address : InAddr) : In6Addr :=
  ⟨mappedStart ++ address.1, by rw [List.length_append, address.2]; rfl⟩

/-! ## The list -/

/-- One part of the list; a text that is no address is reported and left out. -/
def readClient (inetPton : InetPton) (cur : List UInt8) : Option AllowedClient :=
  match inetPton.inet cur with
  | some address => some (.inet address)
  | none => (inetPton.inet6 cur).map .inet6

/-- `fcgi_set_allowed_clients`; the list does not change without a setting. -/
def fcgiSetAllowedClients (inetPton : InetPton) (allowedClients : Option (List AllowedClient))
    (ip : Option (List UInt8)) : Option (List AllowedClient) :=
  match ip with
  | none => allowedClients
  | some ip => some ((ip.splitOn (byte ',')).filterMap (readClient inetPton))

/-- What `fcgi_is_allowed` asks about one element for a peer with an IPv4 address. -/
def matchesInet (client : InAddr) : AllowedClient → Bool
  | .inet sinAddr => memcmpEqual client.1 sinAddr.1 4
  | .inet6 _ => false

/-- What `fcgi_is_allowed` asks about one element for a peer with an IPv6 address. -/
def matchesInet6 (client : In6Addr) : AllowedClient → Bool
  | .inet6 sin6Addr => memcmpEqual client.1 sin6Addr.1 12
  | .inet sinAddr => isAddrV4Mapped client && memcmpEqual (client.1.drop 12) sinAddr.1 4

def fcgiIsAllowed (allowedClients : Option (List AllowedClient)) (clientSa : ClientSa) : Bool :=
  match clientSa, allowedClients with
  | .unix, _ => true
  | _, none => true
  | .inet client, some clients => clients.any (matchesInet client)
  | .inet6 client, some clients => clients.any (matchesInet6 client)
  | .other, some _ => false

/-! ## What the setting means -/

section Meaning

variable (inetPton : InetPton)

/-- The setting names the IPv4 address. -/
def ListsInet (ip : Option (List UInt8)) (address : InAddr) : Prop :=
  ∃ list ∈ ip, ∃ text ∈ list.splitOn (byte ','), inetPton.inet text = some address

/-- The setting names the IPv6 address. -/
def ListsInet6 (ip : Option (List UInt8)) (address : In6Addr) : Prop :=
  ∃ list ∈ ip, ∃ text ∈ list.splitOn (byte ','), inetPton.inet6 text = some address

/-- The peers that the setting is meant to accept. -/
def Permitted (ip : Option (List UInt8)) : ClientSa → Prop
  | .unix => True
  | .inet client => ip = none ∨ ListsInet inetPton ip client
  | .inet6 client => ip = none ∨ ListsInet6 inetPton ip client ∨
      ∃ address, ListsInet inetPton ip address ∧ client = v4Mapped address
  | .other => ip = none

/-- A peer that differs from a listed IPv6 address in its last four bytes only, without being
permitted. -/
def NearListed (ip : Option (List UInt8)) (clientSa : ClientSa) : Prop :=
  ¬ Permitted inetPton ip clientSa ∧
    ∃ client address, clientSa = .inet6 client ∧ ListsInet6 inetPton ip address ∧
      client.1.take 12 = address.1.take 12

end Meaning

/-! ## Reading the list -/

section Reading

variable {inetPton : InetPton} {list : List UInt8}

theorem readClient_inet {text : List UInt8} {address : InAddr} :
    readClient inetPton text = some (.inet address) ↔ inetPton.inet text = some address := by
  rw [readClient]
  cases inetPton.inet text with
  | none => simp
  | some other => simp

theorem readClient_inet6 {text : List UInt8} {address : In6Addr} :
    readClient inetPton text = some (.inet6 address) ↔ inetPton.inet6 text = some address := by
  rw [readClient]
  cases isInet : inetPton.inet text with
  | none => simp
  | some other =>
      have notInet6 := inetPton.inet6_of_inet (by rw [isInet]; rfl)
      simp [notInet6]

theorem mem_clients_inet {address : InAddr} :
    .inet address ∈ (list.splitOn (byte ',')).filterMap (readClient inetPton) ↔
      ListsInet inetPton (some list) address := by
  simp [ListsInet, List.mem_filterMap, readClient_inet]

theorem mem_clients_inet6 {address : In6Addr} :
    .inet6 address ∈ (list.splitOn (byte ',')).filterMap (readClient inetPton) ↔
      ListsInet6 inetPton (some list) address := by
  simp [ListsInet6, List.mem_filterMap, readClient_inet6]

end Reading

/-! ## Comparing addresses -/

theorem memcmpEqual_iff {left right : List UInt8} {count : Nat} :
    memcmpEqual left right count = true ↔ left.take count = right.take count := by
  simp [memcmpEqual]

theorem memcmpEqual_inet {client address : InAddr} :
    memcmpEqual client.1 address.1 4 = true ↔ client = address := by
  rw [memcmpEqual_iff, List.take_of_length_le (Nat.le_of_eq client.2),
    List.take_of_length_le (Nat.le_of_eq address.2)]
  exact Subtype.ext_iff.symm

theorem matchesInet_iff {client : InAddr} {allowed : AllowedClient} :
    matchesInet client allowed = true ↔ allowed = .inet client := by
  cases allowed with
  | inet address =>
      rw [matchesInet, memcmpEqual_inet, AllowedClient.inet.injEq]
      exact eq_comm
  | inet6 address => simp [matchesInet]

/-- The two tests for a mapped address compare all of it. -/
theorem mapped_iff {client : In6Addr} {address : InAddr} :
    (isAddrV4Mapped client && memcmpEqual (client.1.drop 12) address.1 4) = true ↔
      client = v4Mapped address := by
  have rest : (client.1.drop 12).length = 4 := by rw [List.length_drop, client.2]
  rw [Bool.and_eq_true, isAddrV4Mapped, memcmpEqual_iff, memcmpEqual_iff,
    List.take_of_length_le (Nat.le_of_eq rest), List.take_of_length_le (Nat.le_of_eq address.2)]
  constructor
  · intro equal
    apply Subtype.ext
    rw [← List.take_append_drop 12 client.1, equal.1, equal.2]
    rfl
  · intro equal
    rw [equal]
    exact ⟨rfl, rfl⟩

/-- A peer with an IPv6 address is accepted for the first twelve bytes of a listed one. -/
theorem isAllowed_inet6 {inetPton : InetPton} {list : List UInt8} {client : In6Addr} :
    fcgiIsAllowed (fcgiSetAllowedClients inetPton none (some list)) (.inet6 client) = true ↔
      (∃ address, ListsInet6 inetPton (some list) address ∧
        client.1.take 12 = address.1.take 12) ∨
      ∃ address, ListsInet inetPton (some list) address ∧ client = v4Mapped address := by
  rw [fcgiSetAllowedClients, fcgiIsAllowed, List.any_eq_true]
  constructor
  · rintro ⟨allowed, member, accepted⟩
    cases allowed with
    | inet address => exact Or.inr ⟨address, mem_clients_inet.mp member, mapped_iff.mp accepted⟩
    | inet6 address =>
        exact Or.inl ⟨address, mem_clients_inet6.mp member, memcmpEqual_iff.mp accepted⟩
  · intro near
    cases near with
    | inl near =>
        rcases near with ⟨address, listed, equal⟩
        exact ⟨_, mem_clients_inet6.mpr listed, memcmpEqual_iff.mpr equal⟩
    | inr mapped =>
        rcases mapped with ⟨address, listed, equal⟩
        exact ⟨_, mem_clients_inet.mpr listed, mapped_iff.mpr equal⟩

theorem isAllowed_inet {inetPton : InetPton} {list : List UInt8} {client : InAddr} :
    fcgiIsAllowed (fcgiSetAllowedClients inetPton none (some list)) (.inet client) = true ↔
      ListsInet inetPton (some list) client := by
  rw [fcgiSetAllowedClients, fcgiIsAllowed, List.any_eq_true, ← mem_clients_inet]
  constructor
  · rintro ⟨allowed, member, accepted⟩
    rw [← matchesInet_iff.mp accepted]
    exact member
  · intro member
    exact ⟨_, member, matchesInet_iff.mpr rfl⟩

/-! ## Who is accepted -/

theorem isAllowed_of_permitted {inetPton : InetPton} {ip : Option (List UInt8)}
    {clientSa : ClientSa} (permitted : Permitted inetPton ip clientSa) :
    fcgiIsAllowed (fcgiSetAllowedClients inetPton none ip) clientSa = true := by
  cases ip with
  | none => cases clientSa <;> rfl
  | some list =>
      cases clientSa with
      | unix => rfl
      | inet client => exact isAllowed_inet.mpr (permitted.resolve_left (by simp))
      | inet6 client =>
          apply isAllowed_inet6.mpr
          cases permitted.resolve_left (by simp) with
          | inl listed => exact Or.inl ⟨client, listed, rfl⟩
          | inr mapped => exact Or.inr mapped
      | other => simp [Permitted] at permitted

theorem permitted_or_near {inetPton : InetPton} {ip : Option (List UInt8)} {clientSa : ClientSa}
    (accepted : fcgiIsAllowed (fcgiSetAllowedClients inetPton none ip) clientSa = true) :
    Permitted inetPton ip clientSa ∨ NearListed inetPton ip clientSa := by
  by_cases permitted : Permitted inetPton ip clientSa
  · exact Or.inl permitted
  · apply Or.inr
    refine ⟨permitted, ?_⟩
    cases ip with
    | none => cases clientSa <;> simp [Permitted] at permitted
    | some list =>
        cases clientSa with
        | unix => exact absurd trivial permitted
        | inet client => exact absurd (Or.inr (isAllowed_inet.mp accepted)) permitted
        | inet6 client =>
            cases isAllowed_inet6.mp accepted with
            | inl near =>
                rcases near with ⟨address, listed, equal⟩
                exact ⟨client, address, rfl, listed, equal⟩
            | inr mapped => exact absurd (Or.inr (Or.inr mapped)) permitted
        | other => cases accepted

/-- `fcgi_is_allowed` decides as the setting says, except for a peer whose IPv6 address has the
first twelve bytes of a listed one: it is accepted whatever the last four are. -/
theorem isAllowed_iff_permitted_iff (inetPton : InetPton) (ip : Option (List UInt8))
    (clientSa : ClientSa) :
    (fcgiIsAllowed (fcgiSetAllowedClients inetPton none ip) clientSa = true ↔
      Permitted inetPton ip clientSa) ↔ ¬ NearListed inetPton ip clientSa := by
  constructor
  · intro right near
    rcases near with ⟨notPermitted, client, address, rfl, listed, equal⟩
    cases ip with
    | none => exact notPermitted (Or.inl rfl)
    | some list => exact notPermitted (right.mp (isAllowed_inet6.mpr (Or.inl ⟨_, listed, equal⟩)))
  · intro notNear
    constructor
    · intro accepted
      exact (permitted_or_near accepted).resolve_right notNear
    · exact isAllowed_of_permitted

/-- An `inet_pton` that knows the text `::1` and no other. -/
def loopbackOnly : InetPton where
  inet _ := none
  inet6 text :=
    if text = [byte ':', byte ':', byte '1'] then
      some ⟨List.replicate 15 0 ++ [1], rfl⟩
    else
      none
  inet6_of_inet known := by cases known

/-- With `::1` allowed, `::2` is accepted. -/
theorem isAllowed_beside_loopback :
    ∃ client, fcgiIsAllowed (fcgiSetAllowedClients loopbackOnly none
        (some [byte ':', byte ':', byte '1'])) (.inet6 client) = true ∧
      ¬ Permitted loopbackOnly (some [byte ':', byte ':', byte '1']) (.inet6 client) := by
  refine ⟨⟨List.replicate 15 0 ++ [2], rfl⟩, by decide, ?_⟩
  intro permitted
  cases permitted.resolve_left (by simp) with
  | inl listed =>
      rcases listed with ⟨list, _, text, _, equal⟩
      simp only [loopbackOnly] at equal
      split at equal
      · exact absurd (congrArg Subtype.val (Option.some.inj equal)) (by decide)
      · cases equal
  | inr mapped =>
      rcases mapped with ⟨address, ⟨_, _, _, _, known⟩, _⟩
      cases known

end PhpRuntime.FastCgi
