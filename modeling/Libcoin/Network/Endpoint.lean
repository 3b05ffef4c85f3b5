/-
`Endpoint`: the addresses that nodes tell each other.

* `IPAddress` is what is used of the address of a boost endpoint, and `LawfulIPAddress` what is relied on. On the wire
  all addresses have sixteen bytes, and those of version 4 are mapped into them.
* `write` and `read` are `operator<<` and `operator>>`. The time is left out of the bytes for the last try that
  stands for none.
-/

import Libcoin.Ledger.Serialization

namespace Libcoin

open Reader

/-- What is used of `boost::asio::ip::address`. -/
class IPAddress (Address : Type) where
  /-- An `address_v4`. -/
  ofV4 : UInt32 → Address
  /-- An `address_v6` of sixteen bytes. -/
  ofV6 : Data → Address
  /-- `is_v6`. -/
  isV6 : Address → Bool
  /-- `to_v4().to_ulong()`, which throws for the other version. -/
  toV4 : Address → Option UInt32
  /-- `to_v6().to_bytes()`, of an address of this version. -/
  toV6 : Address → Data
  /-- `address_v6::v4_mapped(..).to_bytes()`. -/
  v4Mapped : UInt32 → Data
  /-- `is_v4_mapped` of an `address_v6` of sixteen bytes. -/
  isV4Mapped : Data → Bool
  /-- `to_v4` of such an address. -/
  mappedV4 : Data → UInt32

open IPAddress

/-- What is documented of them: an address is of the version that it was made of, and has sixteen bytes; and mapping is
undone by `to_v4`. -/
class LawfulIPAddress (Address : Type) [IPAddress Address] : Prop where
  toV4_ofV4 : ∀ ip, isV6 (ofV4 ip : Address) = false ∧ toV4 (ofV4 ip : Address) = some ip
  toV6_ofV6 : ∀ ipv6, ipv6.length = 16 → isV6 (ofV6 ipv6 : Address) = true ∧ toV6 (ofV6 ipv6 : Address) = ipv6
  toV6_length : ∀ address : Address, isV6 address = true → (toV6 address).length = 16
  v4Mapped_length : ∀ ip, (v4Mapped Address ip).length = 16
  mappedV4_v4Mapped : ∀ ip, isV4Mapped Address (v4Mapped Address ip) = true ∧
    mappedV4 Address (v4Mapped Address ip) = ip
  v4Mapped_mappedV4 : ∀ ipv6, ipv6.length = 16 → isV4Mapped Address ipv6 = true →
    v4Mapped Address (mappedV4 Address ipv6) = ipv6

namespace IPAddress

section Source

variable {Address : Type} [IPAddress Address]

/-- The sixteen bytes of an address. One that is not of version 6 is of version 4. -/
def getIPv6 (address : Address) : Data :=
  if isV6 address then toV6 address else v4Mapped Address ((toV4 address).getD 0)

/-- The address that `operator>>` makes of sixteen bytes. -/
def ofIPv6 (ipv6 : Data) : Address :=
  if isV4Mapped Address ipv6 then ofV4 (mappedV4 Address ipv6) else ofV6 ipv6

/-- What comes back of an address. -/
def unmapped (address : Address) : Address := ofIPv6 (getIPv6 address)

variable [LawfulIPAddress Address]

open LawfulIPAddress

theorem getIPv6_length (address : Address) : (getIPv6 address).length = 16 := by
  unfold getIPv6
  split
  · rename_i version
    exact toV6_length address version
  · exact v4Mapped_length _

theorem getIPv6_ofIPv6 {ipv6 : Data} (long : ipv6.length = 16) : getIPv6 (ofIPv6 ipv6 : Address) = ipv6 := by
  unfold ofIPv6
  split
  · rename_i mapped
    obtain ⟨version, back⟩ := @toV4_ofV4 Address _ _ (mappedV4 Address ipv6)
    rw [getIPv6, version, back]
    exact v4Mapped_mappedV4 ipv6 long mapped
  · obtain ⟨version, back⟩ := @toV6_ofV6 Address _ _ ipv6 long
    rw [getIPv6, if_pos version, back]

theorem getIPv6_unmapped (address : Address) : getIPv6 (unmapped address) = getIPv6 address :=
  getIPv6_ofIPv6 (getIPv6_length address)

theorem unmapped_unmapped (address : Address) : unmapped (unmapped address) = unmapped address := by
  rw [unmapped, getIPv6_unmapped]
  rfl

theorem unmapped_ofV4 (ip : UInt32) : unmapped (ofV4 ip : Address) = ofV4 ip := by
  obtain ⟨version, back⟩ := @toV4_ofV4 Address _ _ ip
  obtain ⟨mapped, same⟩ := @mappedV4_v4Mapped Address _ _ ip
  have bytes : getIPv6 (ofV4 ip : Address) = v4Mapped Address ip := by
    rw [getIPv6, version, back]
    rfl
  rw [unmapped, bytes, ofIPv6, if_pos mapped, same]

theorem unmapped_ofV6 {ipv6 : Data} (long : ipv6.length = 16) :
    unmapped (ofV6 ipv6 : Address) =
      if isV4Mapped Address ipv6 then ofV4 (mappedV4 Address ipv6) else ofV6 ipv6 := by
  obtain ⟨version, back⟩ := @toV6_ofV6 Address _ _ ipv6 long
  rw [unmapped, getIPv6, if_pos version, back]
  rfl

end Source

end IPAddress

/-- The members of `Endpoint`, with those of the class that it is derived from. -/
structure Endpoint (Address : Type) where
  address : Address
  port : UInt16
  services : UInt64
  time : UInt32
  lastTry : UInt32
  deriving DecidableEq

namespace Endpoint

variable {Address : Type} [IPAddress Address]

/-- `init`, with the address of no host. -/
def init : Endpoint Address := { address := ofV4 0xffffffff, port := 0, services := 1, time := 100000000, lastTry := 0 }

/-- `Endpoint("0.0.0.0")`. -/
def unspecified : Endpoint Address := { @init Address _ with address := ofV4 0 }

def getIPv6 (ep : Endpoint Address) : Data := IPAddress.getIPv6 ep.address

/-- The two bytes of a port, in the order of the network. -/
def writePort (port : UInt16) : Data := (littleBytes 2 port.toNat).reverse

def readPort : Reader UInt16 := (fun bytes => UInt16.ofNat (littleEndian bytes.reverse)) <$> readFresh 2

def readServices (old : UInt64) : Reader UInt64 :=
  (fun bytes => UInt64.ofNat (littleEndian bytes)) <$> readOver (littleBytes 8 old.toNat)

def readTime (old : UInt32) : Reader UInt32 :=
  (fun bytes => UInt32.ofNat (littleEndian bytes)) <$> readOver (littleBytes 4 old.toNat)

/-- What `operator<<` writes after the time. -/
def writeRest (ep : Endpoint Address) : Data := littleBytes 8 ep.services.toNat ++ (ep.getIPv6 ++ writePort ep.port)

/-- `operator<<`. -/
def write (ep : Endpoint Address) : Data :=
  (if ep.lastTry ≠ 0xffffffff then littleBytes 4 ep.time.toNat else []) ++ ep.writeRest

/-- `operator>>` into an endpoint whose time is not skipped. It starts with `init`. -/
def read : Reader (Endpoint Address) :=
  (fun read => { address := ofIPv6 read.2.2.1, port := read.2.2.2, services := read.2.1, time := read.1, lastTry := 0 })
    <$> (readTime (@init Address _).time).pair
      ((readServices (@init Address _).services).pair ((readFresh 16).pair readPort))

/-- What the wire keeps of an endpoint. -/
def onWire (ep : Endpoint Address) : Endpoint Address := { ep with address := unmapped ep.address, lastTry := 0 }

/-! ### What is written is read back -/

theorem readTime_back (old : UInt32) :
    ReadsBack (fun _ => True) (fun time : UInt32 => littleBytes 4 time.toNat) (readTime old) := by
  refine readOver_back.map (fun time : UInt32 => littleBytes 4 time.toNat) ?_ ?_ fun _ _ => rfl
  · intro time _
    rw [littleEndian_littleBytes time.toNat_lt, UInt32.ofNat_toNat]
  · intro time _
    rw [littleBytes_length, littleBytes_length]

theorem readServices_back (old : UInt64) :
    ReadsBack (fun _ => True) (fun services : UInt64 => littleBytes 8 services.toNat) (readServices old) := by
  refine readOver_back.map (fun services : UInt64 => littleBytes 8 services.toNat) ?_ ?_ fun _ _ => rfl
  · intro services _
    rw [littleEndian_littleBytes services.toNat_lt, UInt64.ofNat_toNat]
  · intro services _
    rw [littleBytes_length, littleBytes_length]

theorem readPort_back : ReadsBack (fun _ => True) writePort readPort := by
  refine readFresh_back.map writePort ?_ ?_ fun _ _ => rfl
  · intro port _
    rw [writePort, List.reverse_reverse, littleEndian_littleBytes port.toNat_lt, UInt16.ofNat_toNat]
  · intro port _
    rw [writePort, List.length_reverse, littleBytes_length]

variable [LawfulIPAddress Address]

theorem read_back : ReadsBack (fun ep : Endpoint Address => ep.onWire = ep) write read := by
  refine ((readTime_back _).pair ((readServices_back _).pair (readFresh_back.pair readPort_back))).map
    (fun ep => (ep.time, ep.services, ep.getIPv6, ep.port)) (fun ep same => ?_)
    (fun ep _ => ⟨trivial, trivial, IPAddress.getIPv6_length ep.address, trivial⟩) fun ep same => ?_
  · rw [← same]
    show ({ ep.onWire with address := unmapped (unmapped ep.address) } : Endpoint Address) = ep.onWire
    rw [unmapped_unmapped]
    rfl
  · rw [← same]
    rfl

theorem onWire_onWire (ep : Endpoint Address) : ep.onWire.onWire = ep.onWire := by
  rw [onWire, onWire, unmapped_unmapped]

theorem write_onWire {ep : Endpoint Address} (timed : ep.lastTry ≠ 0xffffffff) : ep.onWire.write = ep.write := by
  rw [write, write, if_pos timed, writeRest, getIPv6, onWire, getIPv6_unmapped]
  rfl

/-- **The endpoints of an `addr` message are read back**, with their times, and what follows them is left. An address of
version 4 comes back, and one of version 6 too, but as that of version 4 where it stands for one. -/
theorem addr_back {endpoints : List (Endpoint Address)} (few : endpoints.length ≤ maxVarint)
    (timed : ∀ ep ∈ endpoints, ep.lastTry ≠ 0xffffffff) (rest : Data) :
    readVector read { bytes := writeVector write endpoints ++ rest, good := true } =
      some (endpoints.map onWire, { bytes := rest, good := true }) ∧
    (∀ ip, unmapped (ofV4 ip : Address) = ofV4 ip) ∧
    ∀ ipv6, ipv6.length = 16 → unmapped (ofV6 ipv6 : Address) =
      if isV4Mapped Address ipv6 then ofV4 (mappedV4 Address ipv6) else ofV6 ipv6 := by
  refine ⟨?_, unmapped_ofV4, fun _ => unmapped_ofV6⟩
  have same : writeVector write endpoints = writeVector write (endpoints.map onWire) := by
    rw [writeVector, writeVector, List.length_map, List.flatMap_map]
    congr 1
    exact List.flatMap_congr fun ep member => (write_onWire (timed ep member)).symm
  rw [same]
  refine read_back.vector _ ⟨by rwa [List.length_map], fun ep member => ?_⟩ rest
  obtain ⟨ep, -, rfl⟩ := List.mem_map.mp member
  exact onWire_onWire ep

end Endpoint

/-! ### Addresses as they are documented -/

/-- An address of either version, with the scope of the second. -/
inductive Host
  | v4 (ip : UInt32)
  | v6 (ipv6 : Vector UInt8 16) (scope : UInt32)
  deriving DecidableEq

namespace Host

/-- The first twelve bytes of an address of version 4 that is mapped. -/
def mapping : Data := List.replicate 10 0 ++ [0xff, 0xff]

instance : IPAddress Host where
  ofV4 := v4
  ofV6 ipv6 := v6 (Vector.ofFn fun idx => ipv6.getD idx 0) 0
  isV6
    | v4 _ => false
    | v6 _ _ => true
  toV4
    | v4 ip => some ip
    | v6 _ _ => none
  toV6
    | v4 _ => []
    | v6 ipv6 _ => ipv6.toList
  v4Mapped ip := mapping ++ (littleBytes 4 ip.toNat).reverse
  isV4Mapped ipv6 := decide (ipv6.take 12 = mapping)
  mappedV4 ipv6 := UInt32.ofNat (littleEndian (ipv6.drop 12).reverse)

theorem toList_ofFn {ipv6 : Data} (long : ipv6.length = 16) :
    (Vector.ofFn fun idx : Fin 16 => ipv6.getD idx 0).toList = ipv6 := by
  apply List.ext_getElem
  · simp [long]
  · intro i inside inside'
    simp [List.getD_eq_getElem?_getD, inside']

instance : LawfulIPAddress Host where
  toV4_ofV4 _ := ⟨rfl, rfl⟩
  toV6_ofV6 _ long := ⟨rfl, toList_ofFn long⟩
  toV6_length
    | v6 ipv6 _, _ => by simp [toV6]
  v4Mapped_length ip := by simp [v4Mapped, mapping]
  mappedV4_v4Mapped ip := by
    have low : (mapping ++ (littleBytes 4 ip.toNat).reverse).drop 12 = (littleBytes 4 ip.toNat).reverse := rfl
    refine ⟨rfl, ?_⟩
    show UInt32.ofNat (littleEndian ((mapping ++ (littleBytes 4 ip.toNat).reverse).drop 12).reverse) = ip
    rw [low, List.reverse_reverse, littleEndian_littleBytes ip.toNat_lt, UInt32.ofNat_toNat]
  v4Mapped_mappedV4 ipv6 long mapped := by
    have low : (ipv6.drop 12).reverse.length = 4 := by simp [long]
    have bytes := littleBytes_littleEndian (ipv6.drop 12).reverse
    have small := littleEndian_lt (ipv6.drop 12).reverse
    rw [low] at bytes small
    show mapping ++ (littleBytes 4 (UInt32.ofNat (littleEndian (ipv6.drop 12).reverse)).toNat).reverse = ipv6
    rw [UInt32.toNat_ofNat_of_lt' small, bytes, List.reverse_reverse, ← of_decide_eq_true mapped, List.take_append_drop]

/-- The address 127.0.0.1 as one of version 6, with a scope. -/
def mappedHost : Host := v6 ⟨((mapping ++ [127, 0, 0, 1]).toArray), rfl⟩ 3

end Host

namespace Endpoint

/-- An endpoint that was tried, and one whose address is mapped. -/
theorem addr_back_one :
    readVector read { bytes := writeVector write [{ @init Host _ with port := 8333, lastTry := 7 },
      { @init Host _ with address := Host.mappedHost, port := 8333 }], good := true } =
      some ([{ @init Host _ with port := 8333 }, { @init Host _ with address := Host.v4 0x7f000001, port := 8333 }],
        { bytes := [], good := true }) :=
  (@addr_back Host _ _ [{ @init Host _ with port := 8333, lastTry := 7 },
    { @init Host _ with address := Host.mappedHost, port := 8333 }] (by decide) (by decide) []).1

end Endpoint

end Libcoin
