/-
The handshake of two peers: `version` and `verack`.

* `Peer.write` and `Peer.read` are `operator<<` and `operator>>`, which send what a peer is and take what it is told
  into the same members. `read_write`: what was sent is what is learned.
* `versionFilter` is `VersionFilter`, and `handleMessage` the loop over all filters. The other ones are parameters:
  `Polite` says that they do nothing for a peer that has not said its version, and leave the members alone that the
  handshake is about.
-/

import Libcoin.Library.Run
import Libcoin.Network.Endpoint
import Libcoin.Network.MessageParser
import Libcoin.Network.Framing

namespace Libcoin

open Reader MessageParser

/-! ### Strings -/

/-- `const_varstr`. -/
def writeVarstr (str : Data) : Data := writeVarint str.length ++ str

/-- `varstr` into a string, which is resized and then read over. -/
def readVarstr (old : Data) : Reader Data := do
  let size ← readVarint
  readOver (resize 0 size old)

theorem readVarstr_back (old : Data) : ReadsBack (fun str => str.length ≤ maxVarint) writeVarstr (readVarstr old) := by
  intro str short rest
  refine bind_eq_some.mpr ⟨str.length, { bytes := str ++ rest, good := true }, ?_, ?_⟩
  · rw [writeVarstr, List.append_assoc]
    exact readVarint_back str.length short _
  · refine readOver_back str ?_ rest
    rw [resize, List.length_append, List.length_take, List.length_replicate]
    omega

namespace Handshake

/-- `NODE_NETWORK`. -/
def nodeNetwork : UInt64 := 1

/-- The members of `Peer` that the handshake is about, with the messages in its send buffer, and what it has given to
`AddTimeData`. The constructor leaves `relayTxes` without a value. -/
structure Peer (Address : Type) where
  endpoint : Endpoint Address
  inbound : Bool
  proxy : Bool
  version : Int
  services : UInt64
  nonce : UInt64
  subVersion : Data
  startingHeight : Int
  relayTxes : Option Bool
  client : Bool
  disconnect : Bool
  successfullyConnected : Bool
  send : List Sent
  timeData : List (UInt32 × Int)

/-- What `operator<<` asks the chain, the clocks, the socket and the manager for. -/
structure Local (Address : Type) where
  protocolVersion : Int
  adjustedTime : Int
  unixTime : Int
  endpoint : Endpoint Address
  bestHeight : Int

/-- What a `version` message says. -/
structure Greeting where
  version : Int
  services : UInt64
  time : Int
  nonce : UInt64
  subVersion : Data
  startingHeight : Int
  relayTxes : Option Bool

variable {Address : Type}

/-! ### The bytes of a version message -/

/-- `binary<bool>` into a variable that may have no value. -/
def readRelay (old : Option Bool) : Reader (Option Bool) := fun s =>
  match s.good, s.bytes with
  | true, byte :: bytes => some (some (byte != 0), { s with bytes := bytes })
  | _, _ => some (old, { bytes := [], good := false })

/-- An endpoint without its time, into variables without values. -/
def skipEndpoint : Reader Unit := do
  let _ ← readFresh 8
  let _ ← readFresh 16
  let _ ← readFresh 2

namespace Peer

/-- The constructor. -/
def new (inbound proxy : Bool) (nonce : UInt64) (subVersion : Data) (endpoint : Endpoint Address) : Peer Address :=
  { endpoint := endpoint, inbound := inbound, proxy := proxy, version := 0, services := 0, nonce := nonce
    subVersion := subVersion, startingHeight := 0, relayTxes := none, client := false, disconnect := false
    successfullyConnected := false, send := [], timeData := [] }

def initialized (p : Peer Address) : Bool := p.version != 0

/-- `operator<<`. -/
def write [IPAddress Address] (p : Peer Address) (env : Local Address) : Data :=
  let nTime := if p.inbound then env.adjustedTime else env.unixTime
  let addrYou := if p.proxy then Endpoint.unspecified else p.endpoint
  let addrMe := if p.proxy then Endpoint.unspecified else env.endpoint
  writeInt 4 (if p.version ≠ 0 then p.version else env.protocolVersion) ++ (littleBytes 8 nodeNetwork.toNat ++
    (writeInt 8 nTime ++ (addrYou.writeRest ++ (addrMe.writeRest ++ (littleBytes 8 p.nonce.toNat ++
      (writeVarstr p.subVersion ++ (writeInt 4 env.bestHeight ++ [1])))))))

/-- The second endpoint, which old versions do not have. -/
def skipSecond (version : Int) : Reader Unit := if 106 ≤ version then skipEndpoint else pure ()

def readSubVersion (p : Peer Address) (version : Int) : Reader Data :=
  if 106 ≤ version then readVarstr p.subVersion else pure p.subVersion

/-- The starting height, unless the stream has reached its end: then a read has failed. -/
def readHeight (p : Peer Address) (version : Int) : Reader Int := fun s =>
  if 209 ≤ version ∧ s.good then readSigned 4 p.startingHeight s else some (p.startingHeight, s)

def readFlag (p : Peer Address) : Reader (Option Bool) := fun s =>
  if s.good then readRelay p.relayTxes s else some (some true, s)

/-- The reads of `operator>>`. -/
def readGreeting (p : Peer Address) : Reader Greeting := do
  let version ← readSigned 4 p.version
  let services ← Endpoint.readServices p.services
  let nTime ← readFresh 8
  skipEndpoint
  let version := if version = 10300 then 300 else version
  skipSecond version
  let nonce ← readFresh 8
  let subVersion ← p.readSubVersion version
  let startingHeight ← p.readHeight version
  let relayTxes ← p.readFlag
  return { version := version, services := services, time := signed 8 (littleEndian nTime)
           nonce := UInt64.ofNat (littleEndian nonce), subVersion := subVersion, startingHeight := startingHeight
           relayTxes := relayTxes }

/-- What `operator>>` does with what it has read. -/
def learn (p : Peer Address) (greeting : Greeting) (ip : UInt32) : Peer Address :=
  { p with
    version := greeting.version
    services := greeting.services
    subVersion := greeting.subVersion
    startingHeight := greeting.startingHeight
    relayTxes := greeting.relayTxes
    disconnect := p.disconnect || greeting.nonce == p.nonce
    nonce := greeting.nonce
    client := greeting.services &&& nodeNetwork == 0
    timeData := p.timeData ++ [(ip, greeting.time)] }

/-- `operator>>`. `getIP` throws for an address of version 6. -/
def read [IPAddress Address] (p : Peer Address) : Reader (Peer Address) := do
  let greeting ← p.readGreeting
  match IPAddress.toV4 p.endpoint.address with
  | none => failure
  | some ip => return p.learn greeting ip

def push (p : Peer Address) (command payload : Data) : Peer Address :=
  { p with send := p.send ++ [{ command := command, payload := payload }] }

/-- `handle_connect`: be shy and don't send version until we hear. -/
def handleConnect [IPAddress Address] (p : Peer Address) (env : Local Address) : Peer Address :=
  if p.inbound then p else p.push versionCommand (p.write env)

end Peer

/-! ### The filters -/

/-- How the call of a filter ends. -/
inductive Outcome
  | returned (ret : Bool)
  | originNotReady
  | failure
  deriving DecidableEq

/-- A filter, with the commands that it is called for. Nothing is what C++ leaves undefined, or an exception that nobody
catches. -/
structure Filter (Address : Type) where
  commands : Data → Bool
  call : Peer Address → Sent → Option (Outcome × Peer Address)

/-- What a peer answers to a version: be shy and don't send version until we hear. -/
def Peer.answer (origin : Peer Address) (os : Data) : List Sent :=
  (if origin.inbound then [{ command := versionCommand, payload := os }] else []) ++
    if 209 ≤ origin.version then [{ command := verackCommand, payload := [] }] else []

/-- The answer is pushed, and the connection is made. -/
def Peer.accept (origin : Peer Address) (os : Data) : Peer Address :=
  { origin with send := origin.send ++ origin.answer os, successfullyConnected := true }

/-- `VersionFilter::operator()`. -/
def versionFilter [IPAddress Address] (env : Local Address) (origin : Peer Address) (msg : Sent) :
    Option (Outcome × Peer Address) :=
  if msg.command = versionCommand then
    -- each connection can only send one version message
    if origin.initialized then some (.returned false, origin)
    else
      let os := origin.write env
      match origin.read { bytes := msg.payload, good := true } with
      | none => none
      | some (origin, _) =>
        if origin.disconnect then some (.returned true, origin)
        else if !origin.initialized then some (.returned false, origin)
        else some (.returned true, origin.accept os)
  else if msg.command = verackCommand then
    if !origin.initialized then some (.originNotReady, origin) else some (.returned true, origin)
  else some (.returned false, origin)

/-- `VersionFilter`. -/
def VersionFilter [IPAddress Address] (env : Local Address) : Filter Address where
  commands command := command == versionCommand || command == verackCommand
  call := versionFilter env

/-- The loop of `handleMessage`. -/
def filterLoop (msg : Sent) : List (Filter Address) → Bool → Peer Address → Option (Bool × Peer Address)
  | [], ret, origin => some (ret, origin)
  | filter :: filters, ret, origin =>
    if filter.commands msg.command then
      match filter.call origin msg with
      | none => none
      | some (.returned one, origin) => filterLoop msg filters (ret || one) origin
      | some (_, origin) => some (false, origin)
    else filterLoop msg filters ret origin

/-- `MessageHandler::handleMessage`, with the filters that the node installs after `VersionFilter`. -/
def handleMessage [IPAddress Address] (env : Local Address) (filters : List (Filter Address)) (origin : Peer Address)
    (msg : Sent) : Option (Bool × Peer Address) :=
  filterLoop msg (VersionFilter env :: filters) false origin

/-! ### What was sent is what is learned -/

theorem skipEndpoint_back [IPAddress Address] [LawfulIPAddress Address] (ep : Endpoint Address) (rest : Data) :
    skipEndpoint { bytes := ep.writeRest ++ rest, good := true } = some ((), { bytes := rest, good := true }) := by
  rw [Endpoint.writeRest, List.append_assoc, List.append_assoc]
  refine bind_eq_some.mpr ⟨_, _, readFresh_back _ (littleBytes_length 8 _) _, ?_⟩
  refine bind_eq_some.mpr ⟨_, _, readFresh_back _ (IPAddress.getIPv6_length ep.address) _, ?_⟩
  have port : (Endpoint.writePort ep.port).length = 2 := by
    rw [Endpoint.writePort, List.length_reverse, littleBytes_length]
  exact bind_eq_some.mpr ⟨_, _, readFresh_back _ port rest, rfl⟩

namespace Peer

/-- What a peer says that has not heard anything. -/
def greeting (p : Peer Address) (env : Local Address) : Greeting where
  version := env.protocolVersion
  services := nodeNetwork
  time := if p.inbound then env.adjustedTime else env.unixTime
  nonce := p.nonce
  subVersion := p.subVersion
  startingHeight := env.bestHeight
  relayTxes := some true

end Peer

/-- The numbers that are sent are those of their types, and the version has all members of the message. The version
10300 is another name of 300. -/
structure Local.Typed (env : Local Address) : Prop where
  version : FitsSigned 4 env.protocolVersion
  recent : 209 ≤ env.protocolVersion
  named : env.protocolVersion ≠ 10300
  adjusted : FitsSigned 8 env.adjustedTime
  unix : FitsSigned 8 env.unixTime
  height : FitsSigned 4 env.bestHeight

theorem Peer.readGreeting_write [IPAddress Address] [LawfulIPAddress Address] (q : Peer Address) {p : Peer Address}
    {env : Local Address} (typed : env.Typed) (short : p.subVersion.length ≤ maxVarint) (unheard : p.version = 0) :
    q.readGreeting { bytes := p.write env, good := true } = some (p.greeting env, { bytes := [], good := true }) := by
  have time : FitsSigned 8 (if p.inbound then env.adjustedTime else env.unixTime) := by
    split
    · exact typed.adjusted
    · exact typed.unix
  have second : (106 : Int) ≤ env.protocolVersion := le_trans (by decide) typed.recent
  have skips (ep : Endpoint Address) (rest : Data) : skipSecond env.protocolVersion
      { bytes := ep.writeRest ++ rest, good := true } = some ((), { bytes := rest, good := true }) := by
    rw [skipSecond, if_pos second]
    exact skipEndpoint_back ep rest
  have names (rest : Data) : q.readSubVersion env.protocolVersion
      { bytes := writeVarstr p.subVersion ++ rest, good := true } =
        some (p.subVersion, { bytes := rest, good := true }) := by
    rw [readSubVersion, if_pos second]
    exact readVarstr_back _ _ short rest
  rw [Peer.write, if_neg (not_not.mpr unheard)]
  refine bind_eq_some.mpr ⟨_, _, readSigned_back _ typed.version _, ?_⟩
  refine bind_eq_some.mpr ⟨_, _, Endpoint.readServices_back _ nodeNetwork trivial _, ?_⟩
  refine bind_eq_some.mpr ⟨_, _, readFresh_back _ (writeInt_length 8 _) _, ?_⟩
  refine bind_eq_some.mpr ⟨_, _, skipEndpoint_back _ _, ?_⟩
  rw [if_neg typed.named]
  refine bind_eq_some.mpr ⟨_, _, skips _ _, ?_⟩
  refine bind_eq_some.mpr ⟨_, _, readFresh_back _ (littleBytes_length 8 _) _, ?_⟩
  refine bind_eq_some.mpr ⟨_, _, names _, ?_⟩
  refine bind_eq_some.mpr ⟨env.bestHeight, { bytes := [1], good := true }, ?_, ?_⟩
  · rw [readHeight, if_pos ⟨typed.recent, rfl⟩]
    exact readSigned_back _ typed.height _
  refine bind_eq_some.mpr ⟨some true, { bytes := [], good := true }, rfl, ?_⟩
  rw [pure_eq_some]
  refine ⟨?_, rfl⟩
  rw [greeting, signed_writeInt time, littleEndian_littleBytes p.nonce.toNat_lt, UInt64.ofNat_toNat]

/-- **What was sent is what is learned**, by a peer at an address of version 4. -/
theorem Peer.read_write [IPAddress Address] [LawfulIPAddress Address] {p q : Peer Address} {env : Local Address}
    (typed : env.Typed) (short : p.subVersion.length ≤ maxVarint) (unheard : p.version = 0) {ip : UInt32}
    (there : IPAddress.toV4 q.endpoint.address = some ip) :
    q.read { bytes := p.write env, good := true } =
      some (q.learn (p.greeting env) ip, { bytes := [], good := true }) := by
  refine bind_eq_some.mpr ⟨_, _, q.readGreeting_write typed short unheard, ?_⟩
  rw [there]
  rfl

/-! ### One message -/

/-- A message that is not part of the handshake. -/
def Other (msg : Sent) : Prop := msg.command ≠ versionCommand ∧ msg.command ≠ verackCommand

/-- The handshake is where it was, and other messages were pushed. -/
def Extends (p p' : Peer Address) : Prop :=
  ∃ others relayTxes, (∀ msg ∈ others, Other msg) ∧ p' = { p with send := p.send ++ others, relayTxes := relayTxes }

theorem Extends.refl (p : Peer Address) : Extends p p := ⟨[], p.relayTxes, by simp, by simp⟩

theorem Extends.trans {p p' p'' : Peer Address} (one : Extends p p') (two : Extends p' p'') : Extends p p'' := by
  obtain ⟨first, _, other, rfl⟩ := one
  obtain ⟨second, relayTxes, other', rfl⟩ := two
  refine ⟨first ++ second, relayTxes, fun msg member => ?_, by rw [List.append_assoc]⟩
  exact (List.mem_append.mp member).elim (other msg) (other' msg)

/-- A filter that does nothing for a peer that has not said its version, and does not touch the handshake. -/
structure Polite (filter : Filter Address) : Prop where
  unready : ∀ origin msg, origin.initialized = false →
    ∃ outcome, filter.call origin msg = some (outcome, origin) ∧ outcome ≠ .returned true
  frame : ∀ origin msg outcome origin', filter.call origin msg = some (outcome, origin') → Extends origin origin'

def filterloadCommand : Data := [102, 105, 108, 116, 101, 114, 108, 111, 97, 100]

def filteraddCommand : Data := [102, 105, 108, 116, 101, 114, 97, 100, 100]

def filterclearCommand : Data := [102, 105, 108, 116, 101, 114, 99, 108, 101, 97, 114]

/-- `FilterHandler`, of which the handshake has only `relayTxes`: the Bloom filter of the peer is left out. -/
def FilterHandler : Filter Address where
  commands command := command == filterloadCommand || command == filteraddCommand || command == filterclearCommand
  call origin msg :=
    if !origin.initialized then some (.originNotReady, origin)
    else if msg.command = filterloadCommand then some (.returned true, { origin with relayTxes := some true })
    else if msg.command = filteraddCommand then some (.returned true, origin)
    else if msg.command = filterclearCommand then some (.returned true, { origin with relayTxes := some true })
    else some (.returned false, origin)

theorem filterHandler_polite : Polite (FilterHandler : Filter Address) where
  unready origin msg unheard := ⟨.originNotReady, by simp [FilterHandler, unheard], nofun⟩
  frame origin msg outcome origin' run := by
    simp only [FilterHandler] at run
    split_ifs at run <;> obtain ⟨-, rfl⟩ := Prod.mk.inj (Option.some.inj run)
    all_goals first | exact .refl _ | exact ⟨[], some true, by simp, by simp⟩

section Filters

variable {env : Local Address} {filters : List (Filter Address)} {origin origin' : Peer Address} {msg : Sent}

theorem filterLoop_frame (polite : ∀ filter ∈ filters, Polite filter) {ret one : Bool}
    (run : filterLoop msg filters ret origin = some (one, origin')) : Extends origin origin' := by
  induction filters generalizing ret origin with
  | nil =>
    obtain ⟨-, rfl⟩ := Prod.mk.inj (Option.some.inj run)
    exact .refl origin
  | cons filter filters ih =>
    have later := fun other member => polite other (List.mem_cons_of_mem filter member)
    rw [filterLoop] at run
    split at run
    · split at run
      · cases run
      · rename_i called
        exact ((polite filter List.mem_cons_self).frame _ _ _ _ called).trans (ih later run)
      · rename_i called
        obtain ⟨-, rfl⟩ := Prod.mk.inj (Option.some.inj run)
        exact (polite filter List.mem_cons_self).frame _ _ _ _ called
    · exact ih later run

/-- Nothing is done for a peer that has not said its version. -/
theorem filterLoop_unready (polite : ∀ filter ∈ filters, Polite filter) (unheard : origin.initialized = false)
    {ret one : Bool} (run : filterLoop msg filters ret origin = some (one, origin')) : origin' = origin := by
  induction filters generalizing ret with
  | nil => exact (Prod.mk.inj (Option.some.inj run)).2.symm
  | cons filter filters ih =>
    have later := fun other member => polite other (List.mem_cons_of_mem filter member)
    obtain ⟨outcome, called, -⟩ := (polite filter List.mem_cons_self).unready origin msg unheard
    rw [filterLoop, called] at run
    split at run
    · cases outcome with
      | returned one => exact ih later run
      | originNotReady => exact (Prod.mk.inj (Option.some.inj run)).2.symm
      | failure => exact (Prod.mk.inj (Option.some.inj run)).2.symm
    · exact ih later run

variable [IPAddress Address]

/-- **Everything that `VersionFilter` can do to a peer.** -/
theorem versionFilter_cases {outcome : Outcome} (run : versionFilter env origin msg = some (outcome, origin')) :
    origin' = origin ∨
    (origin.initialized = false ∧ msg.command = versionCommand ∧ ∃ greeting ip, origin' = origin.learn greeting ip ∧
      (origin'.disconnect = true ∨ origin'.initialized = false)) ∨
    (origin.initialized = false ∧ msg.command = versionCommand ∧ ∃ greeting ip learned,
      learned = origin.learn greeting ip ∧ learned.disconnect = false ∧ learned.initialized = true ∧
      origin' = learned.accept (origin.write env)) := by
  unfold versionFilter at run
  split at run
  · rename_i greets
    split at run
    · obtain ⟨-, rfl⟩ := Prod.mk.inj (Option.some.inj run)
      exact .inl rfl
    · rename_i unheard
      have unheard := Bool.eq_false_iff.mpr unheard
      cases read : origin.read { bytes := msg.payload, good := true } with
      | none =>
        rw [read] at run
        cases run
      | some both =>
        obtain ⟨learned, s⟩ := both
        rw [read] at run
        dsimp only at run
        obtain ⟨greeting, mid, -, rest⟩ := bind_eq_some.mp read
        obtain ⟨ip, rfl⟩ : ∃ ip, learned = origin.learn greeting ip := by
          cases there : IPAddress.toV4 origin.endpoint.address with
          | none =>
            rw [there] at rest
            cases rest
          | some ip =>
            rw [there] at rest
            exact ⟨ip, (pure_eq_some.mp rest).1.symm⟩
        split at run
        · rename_i own
          obtain ⟨-, rfl⟩ := Prod.mk.inj (Option.some.inj run)
          exact .inr (.inl ⟨unheard, greets, greeting, ip, rfl, .inl own⟩)
        · rename_i different
          split at run
          · rename_i silent
            obtain ⟨-, rfl⟩ := Prod.mk.inj (Option.some.inj run)
            exact .inr (.inl ⟨unheard, greets, greeting, ip, rfl, .inr (by simpa using silent)⟩)
          · rename_i heard
            obtain ⟨-, rfl⟩ := Prod.mk.inj (Option.some.inj run)
            exact .inr (.inr ⟨unheard, greets, greeting, ip, _, rfl, by simpa using different, by simpa using heard,
              rfl⟩)
  · split at run
    · split at run <;> obtain ⟨-, rfl⟩ := Prod.mk.inj (Option.some.inj run) <;> exact .inl rfl
    · obtain ⟨-, rfl⟩ := Prod.mk.inj (Option.some.inj run)
      exact .inl rfl

/-- A message goes through `VersionFilter`, and then the other filters add to what it did. -/
theorem handleMessage_cases (polite : ∀ filter ∈ filters, Polite filter) {ret : Bool}
    (run : handleMessage env filters origin msg = some (ret, origin')) :
    ∃ greeted outcome, versionFilter env origin msg = some (outcome, greeted) ∧ Extends greeted origin' ∧
      (greeted.initialized = false → origin' = greeted) := by
  rw [handleMessage, filterLoop] at run
  split at run
  · have called : (VersionFilter env).call origin msg = versionFilter env origin msg := rfl
    rw [called] at run
    split at run
    · cases run
    · rename_i first
      exact ⟨_, _, first, filterLoop_frame polite run, fun unheard => filterLoop_unready polite unheard run⟩
    · rename_i first
      obtain ⟨-, rfl⟩ := Prod.mk.inj (Option.some.inj run)
      exact ⟨_, _, first, .refl _, fun _ => rfl⟩
  · rename_i elsewhere
    have neither : msg.command ≠ versionCommand ∧ msg.command ≠ verackCommand := by
      simpa [VersionFilter] using elsewhere
    refine ⟨origin, .returned false, ?_, filterLoop_frame polite run, fun unheard =>
      filterLoop_unready polite unheard run⟩
    rw [versionFilter, if_neg neither.1, if_neg neither.2]

end Filters

/-! ### One peer, whatever it is told -/

/-- What happens to a peer: a message comes in, or the node has another message for a peer that is connected. -/
inductive Event (Address : Type)
  | receive (env : Local Address) (msg : Sent)
  | relay (msg : { msg : Sent // Other msg })

def perform [IPAddress Address] (filters : List (Filter Address)) (p : Peer Address) :
    Event Address → Option (Peer Address)
  | .receive env msg => (handleMessage env filters p msg).map Prod.snd
  | .relay msg => if p.successfullyConnected then some (p.push msg.1.command msg.1.payload) else none

/-- Where a peer is that has sent `opening` when the connection was made: it waits for a version, or has seen its own
nonce, or is connected and has given its answer. Other messages come after that. -/
inductive Stage (opening : List Sent) (p : Peer Address) : Prop
  | waiting (unheard : p.initialized = false) (apart : p.successfullyConnected = false) (sent : p.send = opening)
  | itself (heard : p.initialized = true) (own : p.disconnect = true) (apart : p.successfullyConnected = false)
      (others : List Sent) (other : ∀ msg ∈ others, Other msg) (sent : p.send = opening ++ others)
  | connected (heard : p.initialized = true) (different : p.disconnect = false) (done : p.successfullyConnected = true)
      (os : Data) (others : List Sent) (other : ∀ msg ∈ others, Other msg)
      (sent : p.send = opening ++ p.answer os ++ others)

section OnePeer

variable {opening : List Sent} {filters : List (Filter Address)} {p p' : Peer Address}

theorem Stage.extend (stage : Stage opening p) (heard : p.initialized = true) (more : Extends p p') :
    Stage opening p' := by
  obtain ⟨added, relayTxes, added_other, rfl⟩ := more
  have together {others : List Sent} (other : ∀ msg ∈ others, Other msg) : ∀ msg ∈ others ++ added, Other msg :=
    fun msg member => (List.mem_append.mp member).elim (other msg) (added_other msg)
  cases stage with
  | waiting unheard =>
    rw [heard] at unheard
    cases unheard
  | itself heard own apart others other sent =>
    refine .itself heard own apart (others ++ added) (together other) ?_
    show p.send ++ added = _
    rw [sent, List.append_assoc]
  | connected heard different done os others other sent =>
    refine .connected heard different done os (others ++ added) (together other) ?_
    show p.send ++ added = opening ++ p.answer os ++ (others ++ added)
    rw [sent, List.append_assoc]

theorem Stage.of_unheard (stage : Stage opening p) (unheard : p.initialized = false) :
    p.successfullyConnected = false ∧ p.send = opening := by
  cases stage with
  | waiting _ apart sent => exact ⟨apart, sent⟩
  | itself heard => simp [unheard] at heard
  | connected heard => simp [unheard] at heard

/-- What one event makes of a stage. -/
theorem Stage.step [IPAddress Address] (polite : ∀ filter ∈ filters, Polite filter) (stage : Stage opening p)
    {event : Event Address} (run : perform filters p event = some p') : Stage opening p' ∧ p'.inbound = p.inbound := by
  cases event with
  | relay msg =>
    rw [perform] at run
    split at run
    · rename_i done
      obtain rfl := Option.some.inj run
      have more : Extends p (p.push msg.1.command msg.1.payload) :=
        ⟨[msg.1], p.relayTxes, fun other member => List.mem_singleton.mp member ▸ msg.2, rfl⟩
      refine ⟨stage.extend ?_ more, rfl⟩
      cases stage with
      | waiting unheard apart => simp [apart] at done
      | itself heard own apart => simp [apart] at done
      | connected heard => exact heard
    · cases run
  | receive env msg =>
    obtain ⟨⟨ret, last⟩, handled, rfl⟩ := Option.map_eq_some_iff.mp run
    obtain ⟨greeted, outcome, first, more, unready⟩ := handleMessage_cases polite handled
    have same : last.inbound = greeted.inbound := by
      obtain ⟨_, _, _, rfl⟩ := more
      rfl
    rcases versionFilter_cases first with rfl | ⟨unheard, -, greeting, ip, rfl, stays⟩ |
      ⟨unheard, -, greeting, ip, learned, rfl, different, heard, rfl⟩
    · cases heard : greeted.initialized with
      | false => exact ⟨(unready heard).symm ▸ stage, same⟩
      | true => exact ⟨stage.extend heard more, same⟩
    · obtain ⟨apart, sent⟩ := stage.of_unheard unheard
      refine ⟨?_, same⟩
      cases heard : (p.learn greeting ip).initialized with
      | false =>
        rw [unready heard]
        exact .waiting heard apart sent
      | true =>
        have own := stays.resolve_right (by simp [heard])
        exact (Stage.itself heard own apart [] (by simp) (by rw [List.append_nil]; exact sent)).extend heard more
    · obtain ⟨apart, sent⟩ := stage.of_unheard unheard
      refine ⟨Stage.extend (p := (p.learn greeting ip).accept (p.write env)) ?_ heard more, same⟩
      refine .connected heard different rfl (p.write env) [] (by simp) ?_
      rw [List.append_nil, ← sent]
      rfl

/-- What the constructor and `handle_connect` leave a peer with. -/
def start [IPAddress Address] (inbound proxy : Bool) (nonce : UInt64) (subVersion : Data) (endpoint : Endpoint Address)
    (env : Local Address) : Peer Address :=
  (Peer.new inbound proxy nonce subVersion endpoint).handleConnect env

/-- How often a version was sent. -/
def versions (sent : List Sent) : Nat := sent.countP fun msg => msg.command == versionCommand

end OnePeer

/-- A node at height seven. -/
def sevenLocal : Local Host where
  protocolVersion := 60001
  adjustedTime := 1400000000
  unixTime := 1400000000
  endpoint := Endpoint.init
  bestHeight := 7

theorem sevenLocal_typed : sevenLocal.Typed :=
  ⟨by decide, by decide, by decide, by decide, by decide, by decide⟩

end Handshake

end Libcoin
