/-
Two peers that are connected to each other.

* `Link` is the two peers, with how many of the messages of each have arrived at the other. A `Move` is the arrival of
  one more, or another message of a node for its peer.
* `Phase` are the states of a link, and `Phase.step` is the one induction step.
-/

import Libcoin.Network.Handshake

namespace Libcoin

open Reader MessageParser

namespace Handshake

/-- A connection: the peer that has made it, the one that was called, and how many messages of either have arrived. -/
structure Link (Address : Type) where
  left : Peer Address
  right : Peer Address
  toRight : Nat
  toLeft : Nat

/-- A message arrives, or a node has another message for its peer. -/
inductive Move (Address : Type)
  | toRight (env : Local Address)
  | toLeft (env : Local Address)
  | relayRight (msg : { msg : Sent // Other msg })
  | relayLeft (msg : { msg : Sent // Other msg })

variable {Address : Type}

/-- What the side that is called is asked for when it answers. -/
def Move.Given (given : Local Address → Prop) : Move Address → Prop
  | .toRight env => given env
  | _ => True

namespace Link

variable [IPAddress Address]

/-- The next message to the right. -/
def step (filters filters' : List (Filter Address)) (link : Link Address) : Move Address → Option (Link Address)
  | .toRight env => do
    let right ← perform filters' link.right (.receive env (← link.left.send[link.toRight]?))
    return { link with right := right, toRight := link.toRight + 1 }
  | .toLeft env => do
    let left ← perform filters link.left (.receive env (← link.right.send[link.toLeft]?))
    return { link with left := left, toLeft := link.toLeft + 1 }
  | .relayRight msg => return { link with left := ← perform filters link.left (.relay msg) }
  | .relayLeft msg => return { link with right := ← perform filters' link.right (.relay msg) }

variable {filters filters' : List (Filter Address)} {link link' : Link Address} {env : Local Address}

theorem step_toRight (run : link.step filters filters' (.toRight env) = some link') :
    ∃ msg right, link.left.send[link.toRight]? = some msg ∧
      perform filters' link.right (.receive env msg) = some right ∧
      link' = { link with right := right, toRight := link.toRight + 1 } := by
  obtain ⟨msg, found, rest⟩ := Option.bind_eq_some_iff.mp run
  obtain ⟨right, done, same⟩ := Option.bind_eq_some_iff.mp rest
  exact ⟨msg, right, found, done, (Option.some.inj same).symm⟩

theorem step_toLeft (run : link.step filters filters' (.toLeft env) = some link') :
    ∃ msg left, link.right.send[link.toLeft]? = some msg ∧
      perform filters link.left (.receive env msg) = some left ∧
      link' = { link with left := left, toLeft := link.toLeft + 1 } := by
  obtain ⟨msg, found, rest⟩ := Option.bind_eq_some_iff.mp run
  obtain ⟨left, done, same⟩ := Option.bind_eq_some_iff.mp rest
  exact ⟨msg, left, found, done, (Option.some.inj same).symm⟩

theorem step_relayRight {msg : { msg : Sent // Other msg }}
    (run : link.step filters filters' (.relayRight msg) = some link') :
    ∃ left, perform filters link.left (.relay msg) = some left ∧ link' = { link with left := left } := by
  obtain ⟨left, done, same⟩ := Option.bind_eq_some_iff.mp run
  exact ⟨left, done, (Option.some.inj same).symm⟩

theorem step_relayLeft {msg : { msg : Sent // Other msg }}
    (run : link.step filters filters' (.relayLeft msg) = some link') :
    ∃ right, perform filters' link.right (.relay msg) = some right ∧ link' = { link with right := right } := by
  obtain ⟨right, done, same⟩ := Option.bind_eq_some_iff.mp run
  exact ⟨right, done, (Option.some.inj same).symm⟩

end Link

section TwoPeers

variable [IPAddress Address]
variable {filters filters' : List (Filter Address)} {p p' : Peer Address}

/-- A peer that has heard a version goes on with other messages. -/
theorem perform_heard (polite : ∀ filter ∈ filters, Polite filter) (heard : p.initialized = true)
    {event : Event Address} (run : perform filters p event = some p') : Extends p p' := by
  cases event with
  | relay msg =>
    rw [perform] at run
    split at run
    · obtain rfl := Option.some.inj run
      exact ⟨[msg.1], p.relayTxes, fun other member => List.mem_singleton.mp member ▸ msg.2, rfl⟩
    · cases run
  | receive env msg =>
    obtain ⟨⟨ret, last⟩, handled, rfl⟩ := Option.map_eq_some_iff.mp run
    obtain ⟨greeted, outcome, first, more, -⟩ := handleMessage_cases polite handled
    rcases versionFilter_cases first with rfl | ⟨unheard, -⟩ | ⟨unheard, -⟩
    · exact more
    · simp [heard] at unheard
    · simp [heard] at unheard

/-- A version that another peer has sent is learned. -/
theorem versionFilter_write [LawfulIPAddress Address] {p q : Peer Address} {env env' : Local Address}
    (typed : env'.Typed) (short : q.subVersion.length ≤ maxVarint) (unheard : q.version = 0) (unheard' : p.version = 0) {ip : UInt32}
    (there : IPAddress.toV4 p.endpoint.address = some ip) :
    versionFilter env p { command := versionCommand, payload := q.write env' } =
      some (.returned true, if (p.learn (q.greeting env') ip).disconnect then p.learn (q.greeting env') ip
        else (p.learn (q.greeting env') ip).accept (p.write env)) := by
  have silent : p.initialized = false := by simp [Peer.initialized, unheard']
  have heard : (p.learn (q.greeting env') ip).initialized = true := by
    have recent := typed.recent
    show (env'.protocolVersion != 0) = true
    rw [bne_iff_ne]
    omega
  rw [versionFilter, if_pos rfl, if_neg (by simp [silent])]
  dsimp only
  rw [Peer.read_write typed short unheard there]
  dsimp only
  split
  · rfl
  · rw [if_neg (by simp [heard])]

/-- What a peer has learned when the other one has said this. -/
def Peer.met (p q : Peer Address) (env env' : Local Address) (ip : UInt32) : Peer Address :=
  (p.learn (q.greeting env') ip).accept (p.write env)

/-- Two peers before the first message: neither has heard anything, and both are at addresses of version 4. -/
structure Strangers (l r : Peer Address) (ipL ipR : UInt32) : Prop where
  unheard : l.version = 0 ∧ r.version = 0
  calm : l.disconnect = false ∧ r.disconnect = false
  apart : l.successfullyConnected = false ∧ r.successfullyConnected = false
  sides : l.inbound = false ∧ r.inbound = true
  short : l.subVersion.length ≤ maxVarint ∧ r.subVersion.length ≤ maxVarint
  there : IPAddress.toV4 l.endpoint.address = some ipL ∧ IPAddress.toV4 r.endpoint.address = some ipR
  silent : r.send = []

/-- The states of a connection. The peer on the left has called; the one on the right answers, or sees its own nonce. -/
inductive Phase (l r : Peer Address) (env : Local Address) (given : Local Address → Prop) (ipL ipR : UInt32) :
    Link Address → Prop
  | called : Phase l r env given ipL ipR { left := l, right := r, toRight := 0, toLeft := 0 }
  | answered {right : Peer Address} {env' : Local Address} (different : l.nonce ≠ r.nonce) (holds : given env')
      (more : Extends (r.met l env' env ipR) right) :
      Phase l r env given ipL ipR { left := l, right := right, toRight := 1, toLeft := 0 }
  | connected {left right : Peer Address} {toRight toLeft : Nat} {env' env'' : Local Address}
      (different : l.nonce ≠ r.nonce) (holds : given env') (more : Extends (r.met l env' env ipR) right) (more' : Extends (l.met r env'' env' ipL) left)
      (some : 1 ≤ toRight ∧ 1 ≤ toLeft) :
      Phase l r env given ipL ipR { left := left, right := right, toRight := toRight, toLeft := toLeft }
  | refused {right : Peer Address} {toLeft : Nat} (same : l.nonce = r.nonce)
      (more : Extends (r.learn (l.greeting env) ipR) right) :
      Phase l r env given ipL ipR { left := l, right := right, toRight := 1, toLeft := toLeft }

section Phases

variable {l r : Peer Address} {env : Local Address} {given : Local Address → Prop} {ipL ipR : UInt32}

omit [IPAddress Address] in
theorem Extends.initialized_eq (more : Extends p p') : p'.initialized = p.initialized := by
  obtain ⟨_, _, _, rfl⟩ := more
  rfl

theorem met_initialized {q : Peer Address} {env' : Local Address} (typed : env'.Typed) (ip : UInt32) :
    (p.met q env env' ip).initialized = true := by
  have recent := typed.recent
  show (env'.protocolVersion != 0) = true
  rw [bne_iff_ne]
  omega

/-- A version arrives at a peer that has not heard one. -/
theorem perform_write [LawfulIPAddress Address] (polite : ∀ filter ∈ filters, Polite filter) {q : Peer Address}
    {env' : Local Address} (typed : env'.Typed) (short : q.subVersion.length ≤ maxVarint) (unheard : q.version = 0) (unheard' : p.version = 0) {ip : UInt32}
    (there : IPAddress.toV4 p.endpoint.address = some ip) (calm : p.disconnect = false)
    (run : perform filters p (.receive env { command := versionCommand, payload := q.write env' }) = some p') :
    Extends (if q.nonce = p.nonce then p.learn (q.greeting env') ip else p.met q env env' ip) p' := by
  obtain ⟨⟨ret, last⟩, handled, rfl⟩ := Option.map_eq_some_iff.mp run
  obtain ⟨greeted, outcome, first, more, -⟩ := handleMessage_cases polite handled
  rw [versionFilter_write typed short unheard unheard' there] at first
  obtain ⟨-, rfl⟩ := Prod.mk.inj (Option.some.inj first)
  have own : (p.learn (q.greeting env') ip).disconnect = (q.nonce == p.nonce) := by
    show (p.disconnect || q.nonce == p.nonce) = _
    rw [calm, Bool.false_or]
  rw [own] at more
  by_cases same : q.nonce = p.nonce
  · rw [if_pos same]
    rwa [if_pos (beq_iff_eq.mpr same)] at more
  · rw [if_neg same]
    rwa [if_neg (mt beq_iff_eq.mp same)] at more

/-- Other messages are not handled by a peer that has not heard a version. -/
theorem perform_unheard (polite : ∀ filter ∈ filters, Polite filter) (unheard : p.initialized = false) {msg : Sent}
    (other : Other msg) (run : perform filters p (.receive env msg) = some p') : p' = p := by
  obtain ⟨⟨ret, last⟩, handled, rfl⟩ := Option.map_eq_some_iff.mp run
  obtain ⟨greeted, outcome, first, -, unready⟩ := handleMessage_cases polite handled
  rw [versionFilter, if_neg other.1, if_neg other.2] at first
  obtain ⟨-, rfl⟩ := Prod.mk.inj (Option.some.inj first)
  exact unready unheard

/-- **One move from one state of the connection to another.** -/
theorem Phase.step [LawfulIPAddress Address] (polite : ∀ filter ∈ filters, Polite filter)
    (polite' : ∀ filter ∈ filters', Polite filter)
    (strangers : Strangers l r ipL ipR) (opening : l.send = [{ command := versionCommand, payload := l.write env }])
    (typed : env.Typed) (typed' : ∀ env', given env' → env'.Typed) {link link' : Link Address}
    (phase : Phase l r env given ipL ipR link) {move : Move Address} (holds : move.Given given)
    (run : link.step filters filters' move = some link') : Phase l r env given ipL ipR link' := by
  have apart {p : Peer Address} (no : p.successfullyConnected = false) {filters : List (Filter Address)}
      {msg : { msg : Sent // Other msg }} {p' : Peer Address}
      (run : perform filters p (.relay msg) = some p') : False := by
    rw [perform, if_neg (by simp [no])] at run
    cases run
  have unheardL : l.initialized = false := by simp [Peer.initialized, strangers.unheard.1]
  cases move with
  | toRight env' =>
    obtain ⟨msg, right, found, done, rfl⟩ := Link.step_toRight run
    cases phase with
    | called =>
      rw [opening] at found
      obtain rfl := Option.some.inj found
      have more := perform_write polite' typed strangers.short.1 strangers.unheard.1 strangers.unheard.2
        strangers.there.2 strangers.calm.2 done
      split at more
      · rename_i same
        exact .refused same more
      · rename_i different
        exact .answered different holds more
    | answered => simp [opening] at found
    | refused => simp [opening] at found
    | connected different holds more more' some =>
      have heard := more.initialized_eq.trans (met_initialized typed _)
      exact .connected different holds (more.trans (perform_heard polite' heard done)) more'
        ⟨Nat.le_succ_of_le some.1, some.2⟩
  | toLeft env' =>
    obtain ⟨msg, left, found, done, rfl⟩ := Link.step_toLeft run
    cases phase with
    | called => simp [strangers.silent] at found
    | @answered right env'' different holds' more =>
      -- The first message of the peer that was called is its version.
      have first : msg = { command := versionCommand, payload := r.write env'' } := by
        obtain ⟨others, relayTxes, -, rfl⟩ := more
        have sent : (r.met l env'' env ipR).send = (r.learn (l.greeting env) ipR).answer (r.write env'') := by
          show r.send ++ _ = _
          rw [strangers.silent, List.nil_append]
        have inbound : (r.learn (l.greeting env) ipR).inbound = true := strangers.sides.2
        change ((r.met l env'' env ipR).send ++ others)[0]? = some msg at found
        rw [sent, Peer.answer, if_pos inbound] at found
        exact (Option.some.inj found).symm
      subst first
      have more' := perform_write polite (typed' env'' holds') strangers.short.2 strangers.unheard.2
        strangers.unheard.1 strangers.there.1 strangers.calm.1 done
      rw [if_neg (Ne.symm different)] at more'
      exact .connected different holds' more more' ⟨le_rfl, le_rfl⟩
    | @refused right toLeft same more =>
      have other : Other msg := by
        obtain ⟨others, relayTxes, other, rfl⟩ := more
        refine other msg (List.mem_of_getElem? (i := toLeft) ?_)
        change (r.send ++ others)[toLeft]? = some msg at found
        rwa [strangers.silent, List.nil_append] at found
      rw [perform_unheard polite unheardL other done]
      exact .refused same more
    | connected different holds' more more' some =>
      have heard := more'.initialized_eq.trans (met_initialized (typed' _ holds') _)
      exact .connected different holds' more (more'.trans (perform_heard polite heard done))
        ⟨some.1, Nat.le_succ_of_le some.2⟩
  | relayRight msg =>
    obtain ⟨left, done, rfl⟩ := Link.step_relayRight run
    cases phase with
    | called => exact absurd done (fun done => apart strangers.apart.1 done)
    | answered => exact absurd done (fun done => apart strangers.apart.1 done)
    | refused => exact absurd done (fun done => apart strangers.apart.1 done)
    | connected different holds' more more' some =>
      have heard := more'.initialized_eq.trans (met_initialized (typed' _ holds') _)
      exact .connected different holds' more (more'.trans (perform_heard polite heard done)) some
  | relayLeft msg =>
    obtain ⟨right, done, rfl⟩ := Link.step_relayLeft run
    cases phase with
    | called => exact absurd done (fun done => apart strangers.apart.2 done)
    | answered different holds' more =>
      have heard := more.initialized_eq.trans (met_initialized typed _)
      exact .answered different holds' (more.trans (perform_heard polite' heard done))
    | refused same more =>
      refine absurd done fun done => apart ?_ done
      obtain ⟨_, _, _, rfl⟩ := more
      exact strangers.apart.2
    | connected different holds' more more' some =>
      have heard := more.initialized_eq.trans (met_initialized typed _)
      exact .connected different holds' (more.trans (perform_heard polite' heard done)) more' some

/-- What a peer knows of the other one when it is connected. -/
structure Knows (p q : Peer Address) (env : Local Address) : Prop where
  version : p.version = env.protocolVersion
  services : p.services = nodeNetwork ∧ p.client = false
  nonce : p.nonce = q.nonce ∧ p.disconnect = false
  subVersion : p.subVersion = q.subVersion
  height : p.startingHeight = env.bestHeight

theorem knows_of_met {q : Peer Address} {env' : Local Address} (calm : p.disconnect = false)
    (different : q.nonce ≠ p.nonce) {ip : UInt32} (more : Extends (p.met q env env' ip) p') : Knows p' q env' ∧ p'.successfullyConnected = true := by
  obtain ⟨_, _, _, rfl⟩ := more
  refine ⟨⟨rfl, ⟨rfl, ?_⟩, ⟨rfl, ?_⟩, rfl, rfl⟩, rfl⟩
  · show ((nodeNetwork &&& nodeNetwork) == 0) = false
    decide
  · show (p.disconnect || q.nonce == p.nonce) = false
    rw [calm, Bool.false_or]
    exact beq_eq_false_iff_ne.mpr different

end Phases

/-- **The handshake, whatever the order in which messages arrive**, and whatever else the nodes send. Each side is
connected as soon as one message has arrived, and knows then what the other side is. Nothing is left in flight unless both
are connected. Two peers with the same nonce never are. -/
theorem handshake_exact [LawfulIPAddress Address] (polite : ∀ filter ∈ filters, Polite filter)
    (polite' : ∀ filter ∈ filters', Polite filter)
    {l r : Peer Address} {proxy proxy' : Bool} {nonce nonce' : UInt64} {subVersion subVersion' : Data}
    {endpoint endpoint' : Endpoint Address} {env env₀ : Local Address} {ipL ipR : UInt32}
    (left : l = start false proxy nonce subVersion endpoint env)
    (right : r = start true proxy' nonce' subVersion' endpoint' env₀)
    (short : subVersion.length ≤ maxVarint ∧ subVersion'.length ≤ maxVarint)
    (there : IPAddress.toV4 endpoint.address = some ipL ∧ IPAddress.toV4 endpoint'.address = some ipR)
    (typed : env.Typed) {given : Local Address → Prop}
    (typed' : ∀ env', given env' → env'.Typed) {moves : List (Move Address)}
    (holds : ∀ move ∈ moves, move.Given given) {link : Link Address}
    (run : moves.foldlM (Link.step filters filters') { left := l, right := r, toRight := 0, toLeft := 0 } = some link) :
    (nonce ≠ nonce' →
      (link.right.successfullyConnected = true ↔ 1 ≤ link.toRight) ∧
      (link.left.successfullyConnected = true ↔ 1 ≤ link.toLeft) ∧
      (link.right.successfullyConnected = true → Knows link.right l env) ∧
      (link.left.successfullyConnected = true → ∃ env', given env' ∧ Knows link.left r env') ∧
      (link.toRight = link.left.send.length → link.toLeft = link.right.send.length →
        link.left.successfullyConnected = true ∧ link.right.successfullyConnected = true)) ∧
    (nonce = nonce' → link.left.successfullyConnected = false ∧ link.right.successfullyConnected = false) := by
  have strangers : Strangers l r ipL ipR := by
    subst left right
    exact ⟨⟨rfl, rfl⟩, ⟨rfl, rfl⟩, ⟨rfl, rfl⟩, ⟨rfl, rfl⟩, short, there, rfl⟩
  have opening : l.send = [{ command := versionCommand, payload := l.write env }] := by
    subst left
    rfl
  have nonces : l.nonce = nonce ∧ r.nonce = nonce' := by
    subst left right
    exact ⟨rfl, rfl⟩
  have phase : Phase l r env given ipL ipR link :=
    Run.foldlM_inv _ _ (fun _ _ _ phase holds one => phase.step polite polite' strangers opening typed typed' holds one)
      .called holds run
  rw [← nonces.1, ← nonces.2]
  cases phase with
  | called =>
    refine ⟨fun _ => ⟨by simp [strangers.apart.2], by simp [strangers.apart.1], by simp [strangers.apart.2],
      by simp [strangers.apart.1], by simp [opening]⟩, fun _ => strangers.apart⟩
  | @answered right env' different holds' more =>
    obtain ⟨knows, done⟩ := knows_of_met strangers.calm.2 different more
    refine ⟨fun _ => ⟨by simp [done], by simp [strangers.apart.1], fun _ => knows, by simp [strangers.apart.1], ?_⟩,
      fun same => absurd same different⟩
    -- The answer is still in flight.
    intro _ empty
    obtain ⟨others, relayTxes, -, rfl⟩ := more
    have inbound : (r.learn (l.greeting env) ipR).inbound = true := strangers.sides.2
    have some : 0 < (r.met l env' env ipR).send.length := by
      show 0 < (r.send ++ (r.learn (l.greeting env) ipR).answer _).length
      rw [Peer.answer, if_pos inbound]
      simp
    change 0 = ((r.met l env' env ipR).send ++ others).length at empty
    rw [List.length_append] at empty
    omega
  | connected different holds' more more' some =>
    obtain ⟨knows, done⟩ := knows_of_met strangers.calm.2 different more
    obtain ⟨knows', done'⟩ := knows_of_met strangers.calm.1 (Ne.symm different) more'
    exact ⟨fun _ => ⟨iff_of_true done some.1, iff_of_true done' some.2, fun _ => knows, fun _ => ⟨_, holds', knows'⟩,
      fun _ _ => ⟨done', done⟩⟩, fun same => absurd same different⟩
  | refused same more =>
    refine ⟨fun different => absurd same different, fun _ => ⟨strangers.apart.1, ?_⟩⟩
    obtain ⟨_, _, _, rfl⟩ := more
    exact strangers.apart.2

end TwoPeers

/-- The two sides of a connection of the node with another one. -/
def sevenLink : Link Host where
  left := start false false 5 [] Endpoint.init sevenLocal
  right := start true false 6 [] Endpoint.init sevenLocal
  toRight := 0
  toLeft := 0

/-- A version to each side, then a filter for the peer on the right, which comes after `verack`. -/
def sevenMoves : List (Move Host) :=
  [.toRight sevenLocal, .toLeft sevenLocal,
    .relayRight ⟨{ command := filterclearCommand, payload := [] }, by decide, by decide⟩,
    .toRight sevenLocal, .toRight sevenLocal]

/-- One message to each side connects them, and others follow. -/
theorem handshake_exact_two :
    ∃ link, sevenMoves.foldlM (Link.step [FilterHandler] [FilterHandler]) sevenLink = some link ∧
      link.left.successfullyConnected = true ∧ link.right.successfullyConnected = true := by
  have arrived : (sevenMoves.foldlM (Link.step [FilterHandler] [FilterHandler]) sevenLink).map
      (fun link => (link.toRight, link.toLeft)) = some (3, 1) := by decide +kernel
  obtain ⟨link, run, counts⟩ := Option.map_eq_some_iff.mp arrived
  obtain ⟨one, two⟩ := Prod.mk.inj counts
  have polite : ∀ filter ∈ [(FilterHandler : Filter Host)], Polite filter := by
    simp [filterHandler_polite]
  have typed : ∀ env : Local Host, env = sevenLocal → env.Typed := fun _ same => same ▸ sevenLocal_typed
  have given : ∀ move ∈ sevenMoves, move.Given (· = sevenLocal) := by
    simp [sevenMoves, Move.Given]
  obtain ⟨right, left, -⟩ := (handshake_exact polite polite rfl rfl ⟨by decide, by decide⟩ ⟨rfl, rfl⟩ sevenLocal_typed
    typed given run).1 (show (5 : UInt64) ≠ 6 by decide)
  exact ⟨link, run, left.mpr two.ge, right.mpr (by omega)⟩

end Handshake

end Libcoin
