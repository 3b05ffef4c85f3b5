/-
Alerts: signed messages that are stored, cancelled by later ones, and relayed.

* `UnsignedAlert.read` is `operator>>`. The set of strings is read word by word, as formatted input.
* `processAlert` is `Alert::processAlert`, and `alertFilter` the branches of `AlertFilter`, with the peers that it
  relays to.

The check of a signature and the hash are parameters.
-/

import Libcoin.Library.Run
import Libcoin.Network.Handshake
import Libcoin.Keys.Base58

namespace Libcoin

open Reader

/-- The members of `UnsignedAlert`. -/
structure UnsignedAlert where
  version : Int
  relayUntil : Int
  expiration : Int
  id : Int
  cancel : Int
  cancels : Finset Int
  minVersion : Int
  maxVersion : Int
  subversions : Finset Data
  priority : Int
  comment : Data
  statusBar : Data
  reserved : Data

namespace UnsignedAlert

/-- `setNull`. -/
def null : UnsignedAlert :=
  { version := 1, relayUntil := 0, expiration := 0, id := 0, cancel := 0, cancels := ∅, minVersion := 0
    maxVersion := 0, subversions := ∅, priority := 0, comment := [], statusBar := [], reserved := [] }

/-- `operator>>` for `std::string`: a word after blanks. It is at the end of the stream when no blank follows. -/
def readWord : Reader Data := fun s =>
  if s.good then
    let rest := s.bytes.dropWhile isspace
    let after := rest.dropWhile fun c => !isspace c
    some (rest.takeWhile fun c => !isspace c, { bytes := after, good := !after.isEmpty })
  else some ([], s)

/-- `operator>>` after `setNull`. -/
def read : Reader UnsignedAlert := do
  let version ← readSigned 4 1
  let relayUntil ← readSigned 8 0
  let expiration ← readSigned 8 0
  let id ← readSigned 4 0
  let cancel ← readSigned 4 0
  let cancels ← readVector readIndex
  let minVersion ← readSigned 4 0
  let maxVersion ← readSigned 4 0
  let subversions ← readVector readWord
  let priority ← readSigned 4 0
  let comment ← readVarstr []
  let statusBar ← readVarstr []
  let reserved ← readVarstr []
  return { version := version, relayUntil := relayUntil, expiration := expiration, id := id, cancel := cancel
           cancels := cancels.toFinset, minVersion := minVersion, maxVersion := maxVersion
           subversions := subversions.toFinset, priority := priority, comment := comment, statusBar := statusBar
           reserved := reserved }

end UnsignedAlert

/-- The members of `Alert`. -/
structure Alert extends UnsignedAlert where
  message : Data
  signature : Data

/-- What an `AlertFilter` is given: its key, the hash, and the version of the node. -/
structure AlertSetting where
  verify : Data → Data → Bool
  hash : Data → Uint256
  version : Int
  subVersion : Data

namespace Alert

variable (setting : AlertSetting) (now : Int)

def write (alert : Alert) : Data := writeVector writeByte alert.message ++ writeVector writeByte alert.signature

/-- `operator>>` into a new alert. -/
def read : Reader Alert := do
  let message ← readVector readByte
  let signature ← readVector readByte
  return { UnsignedAlert.null with message := message, signature := signature }

def getHash (alert : Alert) : Uint256 := setting.hash alert.write

def isInEffect (alert : Alert) : Bool := decide (now < alert.expiration)

def cancelsAlert (alert other : Alert) : Bool :=
  if !alert.isInEffect now then false
  else decide (other.id ≤ alert.cancel) || decide (other.id ∈ alert.cancels)

def appliesTo (alert : Alert) (version : Int) (subversion : Data) : Bool :=
  alert.isInEffect now && decide (alert.minVersion ≤ version) && decide (version ≤ alert.maxVersion) &&
    (decide (alert.subversions = ∅) || decide (subversion ∈ alert.subversions))

/-- `checkSignature`: the alert with the members that its message has, or nothing where it is not signed or its
message is refused. -/
def checkSignature (alert : Alert) : Option Alert :=
  if setting.verify alert.message alert.signature then
    (UnsignedAlert.read { bytes := alert.message, good := true }).map fun done =>
      { done.1 with message := alert.message, signature := alert.signature }
  else none

/-- `processAlert`, with the alert after it where it was accepted, and `mapAlerts`. -/
def processAlert (alert : Alert) (mapAlerts : Map Uint256 Alert) : Option Alert × Map Uint256 Alert :=
  match alert.checkSignature setting with
  | none => (none, mapAlerts)
  | some alert =>
    if !alert.isInEffect now then (none, mapAlerts)
    else
      -- cancel previous alerts, and drop the ones that have expired
      let mapAlerts := mapAlerts.filter fun _ other => !alert.cancelsAlert now other && other.isInEffect now
      if mapAlerts.toList.any fun item => item.2.cancelsAlert now alert then (none, mapAlerts)
      else (some alert, Map.insertNew mapAlerts (alert.getHash setting) alert)

end Alert

/-- The members of a peer that alerts are about, and the alerts that were pushed. -/
structure AlertPeer where
  version : Int
  subVersion : Data
  connected : Bool
  knownAlerts : Finset Uint256
  sent : List Alert

/-- The alerts of a node, its peers, and what it was notified of. -/
structure Alerting where
  mapAlerts : Map Uint256 Alert
  peers : List AlertPeer
  notified : List Data

namespace Alerting

variable (setting : AlertSetting) (now : Int)

/-- Whether an alert is for somebody: it applies to the peer or the node, or is to be relayed anyway. -/
def concerns (alert : Alert) (peer : AlertPeer) : Bool :=
  alert.appliesTo now peer.version peer.subVersion || alert.appliesTo now setting.version setting.subVersion ||
    decide (now < alert.relayUntil)

/-- An alert becomes known to a peer, and is sent if it wasn't already known and is for somebody. -/
def relayTo (alert : Alert) (peer : AlertPeer) : AlertPeer :=
  if alert.getHash setting ∈ peer.knownAlerts then peer
  else
    let peer := { peer with knownAlerts := insert (alert.getHash setting) peer.knownAlerts }
    if concerns setting now alert peer then { peer with sent := peer.sent ++ [alert] } else peer

/-- `alert(hash)` on the peer that the message came from. -/
def markKnown (alert : Alert) (peer : AlertPeer) : AlertPeer :=
  { peer with knownAlerts := insert (alert.getHash setting) peer.knownAlerts }

/-- The branch of an alert that was accepted. -/
def relay (alert : Alert) (origin : Nat) (node : Alerting) : Alerting :=
  let notified := if alert.appliesTo now setting.version setting.subVersion then node.notified ++ [alert.statusBar]
    else node.notified
  let peers := node.peers.modify origin (markKnown setting alert)
  let peers := if alert.isInEffect now then
      peers.map fun peer => if peer.connected then relayTo setting now alert peer else peer
    else peers
  { node with peers := peers, notified := notified }

/-- `AlertFilter::operator()` for an alert. -/
def receive (origin : Nat) (payload : Data) (node : Alerting) : Alerting :=
  match node.peers[origin]? with
  | none => node
  | some peer =>
    if peer.version = 0 then node
    else
      match Alert.read { bytes := payload, good := true } with
      | none => node
      | some (alert, _) =>
        let done := alert.processAlert setting now node.mapAlerts
        let node := { node with mapAlerts := done.2 }
        match done.1 with
        | none => node
        | some alert => relay setting now alert origin node

/-- `AlertFilter::operator()` for a version: the stored alerts that are not in effect. -/
def greet (origin : Nat) (node : Alerting) : Alerting :=
  match node.peers[origin]? with
  | none => node
  | some peer =>
    if peer.version = 0 then node
    else
      let peer := node.mapAlerts.toList.foldl (fun peer item =>
        if !item.2.isInEffect now then relayTo setting now item.2 peer else peer) peer
      { node with peers := node.peers.set origin peer }

/-- What happens to a node: a peer is added, says its version and is connected or not; a message arrives. -/
inductive Event
  | join
  | update (origin : Nat) (version : Int) (subVersion : Data) (connected : Bool)
  | alert (now : Int) (origin : Nat) (payload : Data)
  | version (now : Int) (origin : Nat)

def step (node : Alerting) : Event → Alerting
  | .join => { node with
      peers := node.peers ++ [{ version := 0, subVersion := [], connected := false, knownAlerts := ∅, sent := [] }] }
  | .update origin version subVersion connected => { node with
      peers := node.peers.modify origin fun peer =>
        { peer with version := version, subVersion := subVersion, connected := connected } }
  | .alert now origin payload => receive setting now origin payload node
  | .version now origin => greet setting now origin node

/-- A node without peers. -/
def start : Alerting := { mapAlerts := ∅, peers := [], notified := [] }

end Alerting

/-! ### The stored alerts -/

namespace Alert

variable {setting : AlertSetting} {now : Int}

/-- An alert names another one among those that it cancels, by their numbers. -/
def Overrides (alert other : Alert) : Prop := other.id ≤ alert.cancel ∨ other.id ∈ alert.cancels

theorem cancelsAlert_iff (alert other : Alert) :
    alert.cancelsAlert now other = true ↔ alert.isInEffect now = true ∧ alert.Overrides other := by
  unfold cancelsAlert Overrides
  cases alert.isInEffect now <;> simp

/-- A signed alert that was unserialized is unserialized to itself. -/
theorem checkSignature_again {alert signed : Alert} (checked : alert.checkSignature setting = some signed) :
    signed.checkSignature setting = some signed := by
  have same : signed.message = alert.message ∧ signed.signature = alert.signature := by
    unfold checkSignature at checked
    split at checked
    · obtain ⟨done, -, rfl⟩ := Option.map_eq_some_iff.mp checked
      exact ⟨rfl, rfl⟩
    · cases checked
  rw [← checked]
  unfold checkSignature
  rw [same.1, same.2]

/-- The stored alerts that are left when an alert has cancelled others and those that have expired are gone. -/
def Left (now : Int) (alert : Alert) (mapAlerts : Map Uint256 Alert) (h : Uint256)
    (other : Alert) : Prop :=
  mapAlerts[h]? = some other ∧ other.isInEffect now = true ∧ ¬alert.Overrides other

/-- **One alert**: what is left of the stored ones decides whether it is accepted, and then it is stored as well. -/
theorem processAlert_spec {alert signed : Alert} (mapAlerts : Map Uint256 Alert)
    (checked : alert.checkSignature setting = some signed) (inEffect : signed.isInEffect now = true) :
    ((∀ h other, Left now signed mapAlerts h other → ¬other.Overrides signed) →
      ∃ stored, alert.processAlert setting now mapAlerts = (some signed, stored) ∧
        stored[signed.getHash setting]?.isSome = true ∧
        ∀ h other, stored[h]? = some other ↔ Left now signed mapAlerts h other ∨
          h = signed.getHash setting ∧ other = signed ∧ ∀ old, ¬Left now signed mapAlerts h old) ∧
    (¬(∀ h other, Left now signed mapAlerts h other → ¬other.Overrides signed) →
      ∃ stored, alert.processAlert setting now mapAlerts = (none, stored) ∧
        ∀ h other, stored[h]? = some other ↔ Left now signed mapAlerts h other) := by
  have kept (h : Uint256) (other : Alert) : (mapAlerts.filter fun _ other =>
      !signed.cancelsAlert now other && other.isInEffect now)[h]? = some other ↔
        Left now signed mapAlerts h other := by
    rw [Map.lookup_filter_eq_some, Bool.and_eq_true, Bool.not_eq_true', ← Bool.not_eq_true, cancelsAlert_iff, Left]
    simp only [inEffect, true_and, and_comm]
  have run : alert.processAlert setting now mapAlerts =
      if (mapAlerts.filter fun _ other => !signed.cancelsAlert now other && other.isInEffect now).toList.any
          (fun item => item.2.cancelsAlert now signed) then
        (none, mapAlerts.filter fun _ other => !signed.cancelsAlert now other && other.isInEffect now)
      else (some signed, Map.insertNew (mapAlerts.filter fun _ other =>
        !signed.cancelsAlert now other && other.isInEffect now) (signed.getHash setting) signed) := by
    rw [processAlert, checked]
    dsimp only
    rw [inEffect]
    rfl
  generalize (mapAlerts.filter fun _ other => !signed.cancelsAlert now other && other.isInEffect now) = left
    at kept run
  have refused : left.toList.any (fun item => item.2.cancelsAlert now signed) = true ↔
      ¬∀ h other, Left now signed mapAlerts h other → ¬other.Overrides signed := by
    rw [List.any_eq_true]
    push Not
    constructor
    · rintro ⟨⟨h, other⟩, member, cancels⟩
      have stored := (kept h other).mp (Map.mem_toList.mp member)
      exact ⟨h, other, stored, ((cancelsAlert_iff _ _).mp cancels).2⟩
    · rintro ⟨h, other, stored, overrides⟩
      exact ⟨(h, other), Map.mem_toList.mpr ((kept h other).mpr stored),
        (cancelsAlert_iff _ _).mpr ⟨stored.2.1, overrides⟩⟩
  refine ⟨fun accepted => ?_, fun cancelled => ⟨left, ?_, kept⟩⟩
  · rw [if_neg (mt refused.mp (not_not.mpr accepted))] at run
    refine ⟨_, run, Map.isSome_insertNew_self _ _ _, fun h other => ?_⟩
    rw [Map.lookup_insertNew]
    split
    · rename_i same
      subst same
      cases old : left[signed.getHash setting]? with
      | none =>
        have nobody (other' : Alert) : ¬Left now signed mapAlerts (signed.getHash setting) other' := fun there =>
          Option.some_ne_none other' (((kept _ other').mpr there).symm.trans old)
        rw [Option.getD_none, Option.some.injEq, or_iff_right (nobody other)]
        exact ⟨fun same => ⟨rfl, same.symm, nobody⟩, fun new => new.2.1.symm⟩
      | some other' =>
        have there := (kept _ other').mp old
        rw [Option.getD_some, Option.some.injEq]
        constructor
        · rintro rfl
          exact .inl there
        · rintro (again | ⟨-, -, nobody⟩)
          · exact Option.some.inj (there.1.symm.trans again.1)
          · exact absurd there (nobody other')
    · rename_i apart
      rw [kept]
      exact ⟨.inl, fun either => either.resolve_right fun new => apart new.1.symm⟩
  · rw [run, if_pos (refused.mpr cancelled)]

/-- An alert that is not signed, or not in effect, changes nothing. -/
theorem processAlert_unsigned {alert : Alert} {mapAlerts : Map Uint256 Alert}
    (without : ∀ signed, alert.checkSignature setting = some signed → signed.isInEffect now = false) :
    alert.processAlert setting now mapAlerts = (none, mapAlerts) := by
  unfold processAlert
  cases checked : alert.checkSignature setting with
  | none => rfl
  | some signed =>
    dsimp only
    rw [without signed checked]
    rfl

theorem inEffect_of_accepted {alert signed : Alert} {mapAlerts : Map Uint256 Alert}
    (accepted : (alert.processAlert setting now mapAlerts).1 = some signed) : signed.isInEffect now = true := by
  unfold processAlert at accepted
  split at accepted
  · cases accepted
  · split at accepted
    · cases accepted
    · rename_i inEffect
      dsimp only at accepted
      split at accepted
      · cases accepted
      · obtain rfl := Option.some.inj accepted
        simpa using inEffect

end Alert

/-- What holds of the stored alerts. -/
structure StoredAlerts (setting : AlertSetting) (mapAlerts : Map Uint256 Alert) : Prop where
  keyed : ∀ (h : Uint256) alert, mapAlerts[h]? = some alert → alert.getHash setting = h
  signed : ∀ (h : Uint256) alert, mapAlerts[h]? = some alert → alert.checkSignature setting = some alert
  apart : ∀ (h h' : Uint256) alert other, mapAlerts[h]? = some alert → mapAlerts[h']? = some other → h ≠ h' →
    ¬alert.Overrides other

namespace StoredAlerts

variable {setting : AlertSetting} {now : Int} {mapAlerts : Map Uint256 Alert}

theorem processAlert (good : StoredAlerts setting mapAlerts) (alert : Alert) :
    StoredAlerts setting (alert.processAlert setting now mapAlerts).2 := by
  by_cases without : ∀ signed, alert.checkSignature setting = some signed → signed.isInEffect now = false
  · rw [Alert.processAlert_unsigned without]
    exact good
  · push Not at without
    obtain ⟨signed, checked, inEffect⟩ := without
    have inEffect : signed.isInEffect now = true := by simpa using inEffect
    obtain ⟨accepts, refuses⟩ := Alert.processAlert_spec mapAlerts checked inEffect
    by_cases accepted : ∀ h other, Alert.Left now signed mapAlerts h other → ¬other.Overrides signed
    · obtain ⟨stored, run, -, lookup⟩ := accepts accepted
      rw [run]
      refine ⟨fun h other found => ?_, fun h other found => ?_, fun h h' one two found found' different => ?_⟩
      · rcases (lookup h other).mp found with left | ⟨rfl, rfl, -⟩
        · exact good.keyed h other left.1
        · rfl
      · rcases (lookup h other).mp found with left | ⟨-, rfl, -⟩
        · exact good.signed h other left.1
        · exact Alert.checkSignature_again checked
      · rcases (lookup h one).mp found with left | ⟨rfl, rfl, -⟩
        · rcases (lookup h' two).mp found' with left' | ⟨-, rfl, -⟩
          · exact good.apart h h' one two left.1 left'.1 different
          · exact accepted h one left
        · rcases (lookup h' two).mp found' with left' | ⟨rfl, -, -⟩
          · exact left'.2.2
          · exact absurd rfl different
    · obtain ⟨stored, run, lookup⟩ := refuses accepted
      rw [run]
      have before {h : Uint256} {other : Alert} (found : stored[h]? = some other) : mapAlerts[h]? = some other :=
        ((lookup h other).mp found).1
      exact ⟨fun h other found => good.keyed h other (before found), fun h other found =>
        good.signed h other (before found), fun h h' one two found found' =>
          good.apart h h' one two (before found) (before found')⟩

end StoredAlerts

namespace Alerting

variable {setting : AlertSetting} {now : Int}

/-- The alerts after an event. -/
theorem step_mapAlerts (node : Alerting) (event : Event) : (step setting node event).mapAlerts = node.mapAlerts ∨
    ∃ (time : Int) (alert : Alert), (step setting node event).mapAlerts =
      (alert.processAlert setting time node.mapAlerts).2 := by
  cases event with
  | join => exact .inl rfl
  | update => exact .inl rfl
  | version now origin =>
    left
    show (greet setting now origin node).mapAlerts = node.mapAlerts
    unfold greet
    split
    · rfl
    · split <;> rfl
  | alert now origin payload =>
    show (receive setting now origin payload node).mapAlerts = node.mapAlerts ∨ ∃ (time : Int) (alert : Alert),
      (receive setting now origin payload node).mapAlerts = (alert.processAlert setting time node.mapAlerts).2
    unfold receive
    split
    · exact .inl rfl
    · split
      · exact .inl rfl
      · split
        · exact .inl rfl
        · rename_i alert _ _
          refine .inr ⟨now, alert, ?_⟩
          dsimp only
          split <;> rfl

theorem step_stored {node : Alerting} (good : StoredAlerts setting node.mapAlerts) (event : Event) :
    StoredAlerts setting (step setting node event).mapAlerts := by
  rcases step_mapAlerts node event with same | ⟨now, alert, done⟩
  · rw [same]
    exact good
  · rw [done]
    exact good.processAlert alert

/-- **The stored alerts, after every run**: they are signed and kept under their hashes, and none cancels another. One
more alert removes those that it cancels and those that have expired, also if it is refused; and it is refused exactly
when one that is left cancels it. -/
theorem alerts_exact (events : List Event) :
    StoredAlerts setting (Run.final (step setting) start events).mapAlerts ∧
    ∀ (now : Int) (alert signed : Alert), alert.checkSignature setting = some signed → signed.isInEffect now = true →
      ∃ accepted stored,
        alert.processAlert setting now (Run.final (step setting) start events).mapAlerts = (accepted, stored) ∧
        (accepted = some signed ∨ accepted = none) ∧
        (accepted = some signed ↔ ∀ h other, Alert.Left now signed (Run.final (step setting) start events).mapAlerts h
          other → ¬other.Overrides signed) ∧
        ∀ h other, stored[h]? = some other ↔
          Alert.Left now signed (Run.final (step setting) start events).mapAlerts h other ∨
          accepted = some signed ∧ h = signed.getHash setting ∧ other = signed ∧
            ∀ old, ¬Alert.Left now signed (Run.final (step setting) start events).mapAlerts h old := by
  refine ⟨?_, fun now alert signed checked inEffect => ?_⟩
  · have empty : StoredAlerts setting start.mapAlerts := by
      refine ⟨fun h alert found => ?_, fun h alert found => ?_, fun h h' alert other found => ?_⟩
      all_goals
        rw [show start.mapAlerts[h]? = none from Map.lookup_empty h] at found
        cases found
    exact Run.final_inv (fun node : Alerting => StoredAlerts setting node.mapAlerts)
      (fun _ event good => step_stored good event) empty events
  · generalize (Run.final (step setting) start events).mapAlerts = mapAlerts
    obtain ⟨accepts, refuses⟩ := Alert.processAlert_spec mapAlerts checked inEffect
    by_cases accepted : ∀ h other, Alert.Left now signed mapAlerts h other → ¬other.Overrides signed
    · obtain ⟨stored, run, -, lookup⟩ := accepts accepted
      exact ⟨some signed, stored, run, .inl rfl, iff_of_true rfl accepted, fun h other => by
        rw [lookup, eq_self_iff_true, true_and]⟩
    · obtain ⟨stored, run, lookup⟩ := refuses accepted
      exact ⟨none, stored, run, .inr rfl, iff_of_false (Option.some_ne_none _).symm accepted, fun h other => by
        rw [lookup, or_iff_left fun both => Option.some_ne_none _ both.1.symm]⟩

/-! ### What peers are sent -/

/-- From one state of a peer to a later one: what was sent in between was not known before, and each of it once. -/
def Tells (setting : AlertSetting) (peer peer' : AlertPeer) : Prop :=
  peer.knownAlerts ⊆ peer'.knownAlerts ∧ ∃ news, peer'.sent = peer.sent ++ news ∧
    (news.map (Alert.getHash setting)).Nodup ∧
    ∀ alert ∈ news, alert.getHash setting ∉ peer.knownAlerts ∧ alert.getHash setting ∈ peer'.knownAlerts

theorem Tells.refl (peer : AlertPeer) : Tells setting peer peer := ⟨subset_rfl, [], by simp, by simp, by simp⟩

theorem Tells.of_same {peer peer' : AlertPeer} (known : peer.knownAlerts ⊆ peer'.knownAlerts)
    (same : peer'.sent = peer.sent) : Tells setting peer peer' := ⟨known, [], by simp [same], by simp, by simp⟩

theorem Tells.trans {peer peer' peer'' : AlertPeer} (one : Tells setting peer peer') (two : Tells setting peer' peer'') :
    Tells setting peer peer'' := by
  obtain ⟨grows, news, sent, once, new⟩ := one
  obtain ⟨grows', news', sent', once', new'⟩ := two
  refine ⟨grows.trans grows', news ++ news', by rw [sent', sent, List.append_assoc], ?_, fun alert member => ?_⟩
  · rw [List.map_append, List.nodup_append]
    refine ⟨once, once', fun h first h' second same => ?_⟩
    obtain ⟨alert, member, rfl⟩ := List.mem_map.mp first
    obtain ⟨alert', member', rfl⟩ := List.mem_map.mp second
    exact (new' alert' member').1 (same ▸ (new alert member).2)
  · rcases List.mem_append.mp member with first | second
    · exact ⟨(new alert first).1, grows' (new alert first).2⟩
    · exact ⟨fun known => (new' alert second).1 (grows known), (new' alert second).2⟩

theorem relayTo_tells (alert : Alert) (peer : AlertPeer) : Tells setting peer (relayTo setting now alert peer) := by
  unfold relayTo
  split
  · exact .refl peer
  · rename_i unknown
    dsimp only
    split
    · refine ⟨Finset.subset_insert _ _, [alert], rfl, by simp, fun other member => ?_⟩
      obtain rfl := List.mem_singleton.mp member
      exact ⟨unknown, Finset.mem_insert_self _ _⟩
    · exact .of_same (Finset.subset_insert _ _) rfl

theorem markKnown_tells (alert : Alert) (peer : AlertPeer) : Tells setting peer (markKnown setting alert peer) :=
  .of_same (Finset.subset_insert _ _) rfl

/-- The loop over the stored alerts. -/
theorem foldl_tells (items : List (Uint256 × Alert)) (peer : AlertPeer) : Tells setting peer
    (items.foldl (fun peer item => if !item.2.isInEffect now then relayTo setting now item.2 peer else peer) peer) := by
  induction items generalizing peer with
  | nil => exact .refl peer
  | cons item items ih =>
    refine Tells.trans ?_ (ih _)
    dsimp only
    split
    · exact relayTo_tells item.2 peer
    · exact .refl peer

/-- A relayed alert becomes known to the peer that it came from, and to the peers that are connected. -/
theorem relay_tells (node : Alerting) {i : Nat} {peer : AlertPeer} (there : node.peers[i]? = some peer) (alert : Alert)
    (origin : Nat) : ∃ peer', (relay setting now alert origin node).peers[i]? = some peer' ∧ Tells setting peer peer' ∧
      (i = origin ∨ peer.connected = true ∧ alert.isInEffect now = true → alert.getHash setting ∈ peer'.knownAlerts) := by
  have first : ∃ mid, (node.peers.modify origin (markKnown setting alert))[i]? = some mid ∧ Tells setting peer mid ∧
      mid.connected = peer.connected ∧ (i = origin → alert.getHash setting ∈ mid.knownAlerts) := by
    rw [List.getElem?_modify, there]
    split
    · exact ⟨_, rfl, markKnown_tells alert peer, rfl, fun _ => Finset.mem_insert_self _ _⟩
    · rename_i apart
      exact ⟨peer, rfl, .refl peer, rfl, fun same => absurd same.symm apart⟩
  obtain ⟨mid, found, tells, connected, own⟩ := first
  unfold relay
  dsimp only
  split
  · rename_i inEffect
    rw [List.getElem?_map, found]
    refine ⟨_, rfl, ?_, fun known => ?_⟩
    · dsimp only
      split
      · exact tells.trans (relayTo_tells alert mid)
      · exact tells
    · dsimp only
      split
      · rename_i open_
        by_cases before : alert.getHash setting ∈ mid.knownAlerts
        · exact (relayTo_tells alert mid).1 before
        · rw [relayTo, if_neg before]
          dsimp only
          split <;> exact Finset.mem_insert_self _ _
      · rename_i closed
        exact own (known.resolve_right fun both => closed (connected.trans both.1))
  · rename_i expired
    exact ⟨mid, found, tells, fun known => own (known.resolve_right fun both => expired both.2)⟩

/-- What an event makes of every peer. -/
theorem step_tells (node : Alerting) (event : Event) (i : Nat) {peer : AlertPeer} (there : node.peers[i]? = some peer) :
    ∃ peer', (step setting node event).peers[i]? = some peer' ∧ Tells setting peer peer' := by
  have unchanged : ∃ peer', node.peers[i]? = some peer' ∧ Tells setting peer peer' := ⟨peer, there, .refl peer⟩
  cases event with
  | join =>
    refine ⟨peer, ?_, .refl peer⟩
    show (node.peers ++ [_])[i]? = some peer
    rw [List.getElem?_append_left (List.getElem?_eq_some_iff.mp there).1, there]
  | update origin version subVersion connected =>
    show ∃ peer', (node.peers.modify origin _)[i]? = some peer' ∧ _
    rw [List.getElem?_modify, there]
    split
    · exact ⟨_, rfl, .of_same subset_rfl rfl⟩
    · exact ⟨_, rfl, .refl peer⟩
  | version now origin =>
    show ∃ peer', (greet setting now origin node).peers[i]? = some peer' ∧ _
    unfold greet
    split
    · exact unchanged
    · rename_i old found
      split
      · exact unchanged
      · dsimp only
        rw [List.getElem?_set]
        split
        · rename_i same
          subst same
          obtain rfl : old = peer := Option.some.inj (found.symm.trans there)
          rw [if_pos (List.getElem?_eq_some_iff.mp there).1]
          exact ⟨_, rfl, foldl_tells _ _⟩
        · exact unchanged
  | alert now origin payload =>
    show ∃ peer', (receive setting now origin payload node).peers[i]? = some peer' ∧ _
    unfold receive
    split
    · exact unchanged
    · split
      · exact unchanged
      · split
        · exact unchanged
        · dsimp only
          split
          · exact unchanged
          · rename_i alert _
            obtain ⟨peer', found, tells, -⟩ := relay_tells { node with
              mapAlerts := (Alert.processAlert setting now _ node.mapAlerts).2 } there alert origin
            exact ⟨peer', found, tells⟩

/-- A peer between two moments of a run. -/
theorem final_tells (events : List Event) (node : Alerting) (i : Nat) {peer : AlertPeer}
    (there : node.peers[i]? = some peer) :
    ∃ peer', (Run.final (step setting) node events).peers[i]? = some peer' ∧ Tells setting peer peer' := by
  induction events generalizing node peer with
  | nil => exact ⟨peer, there, .refl peer⟩
  | cons event events ih =>
    obtain ⟨next, found, tells⟩ := step_tells node event i there
    obtain ⟨last, found', tells'⟩ := ih _ found
    exact ⟨last, found', tells.trans tells'⟩

/-- Every alert was sent once, and is known. -/
def Once (setting : AlertSetting) (peer : AlertPeer) : Prop :=
  (peer.sent.map (Alert.getHash setting)).Nodup ∧ ∀ alert ∈ peer.sent, alert.getHash setting ∈ peer.knownAlerts

theorem Tells.once {peer peer' : AlertPeer} (tells : Tells setting peer peer') (once : Once setting peer) :
    Once setting peer' := by
  obtain ⟨grows, news, sent, distinct, new⟩ := tells
  refine ⟨?_, fun alert member => ?_⟩
  · rw [sent, List.map_append, List.nodup_append]
    refine ⟨once.1, distinct, fun h first h' second same => ?_⟩
    obtain ⟨alert, member, rfl⟩ := List.mem_map.mp first
    obtain ⟨alert', member', rfl⟩ := List.mem_map.mp second
    exact (new alert' member').1 (same ▸ once.2 alert member)
  · rw [sent] at member
    exact (List.mem_append.mp member).elim (fun first => grows (once.2 alert first)) fun second => (new alert second).2

theorem relay_length (node : Alerting) (alert : Alert) (origin : Nat) :
    (relay setting now alert origin node).peers.length = node.peers.length := by
  unfold relay
  dsimp only
  split <;> simp

/-- The only peer that an event adds is one that knows nothing. -/
theorem step_new {node : Alerting} {event : Event} {i : Nat} (before : node.peers[i]? = none) {peer : AlertPeer}
    (there : (step setting node event).peers[i]? = some peer) : peer.sent = [] := by
  have outside := List.getElem?_eq_none_iff.mp before
  have short {peers : List AlertPeer} (same : peers.length = node.peers.length) (found : peers[i]? = some peer) :
      peer.sent = [] := by
    have inside := (List.getElem?_eq_some_iff.mp found).1
    omega
  cases event with
  | join =>
    change (node.peers ++ [_])[i]? = some peer at there
    rw [List.getElem?_append_right outside, List.getElem?_singleton] at there
    split at there
    · obtain rfl := Option.some.inj there
      rfl
    · cases there
  | update origin version subVersion connected => exact short (List.length_modify ..) there
  | version now origin =>
    refine short ?_ there
    show (greet setting now origin node).peers.length = _
    unfold greet
    split
    · rfl
    · split
      · rfl
      · exact List.length_set
  | alert now origin payload =>
    refine short ?_ there
    show (receive setting now origin payload node).peers.length = _
    unfold receive
    split
    · rfl
    · split
      · rfl
      · split
        · rfl
        · dsimp only
          split
          · rfl
          · exact relay_length _ _ _

theorem step_once {node : Alerting} (all : ∀ (i : Nat) peer, node.peers[i]? = some peer → Once setting peer) (event : Event)
    (i : Nat) (peer : AlertPeer) (there : (step setting node event).peers[i]? = some peer) : Once setting peer := by
  cases before : node.peers[i]? with
  | none =>
    have nothing := step_new before there
    exact ⟨by simp [nothing], by simp [nothing]⟩
  | some old =>
    obtain ⟨peer', found, tells⟩ := @step_tells setting node event i old before
    obtain rfl : peer = peer' := Option.some.inj (there.symm.trans found)
    exact tells.once (all i old before)

/-- **Every alert once**: in every run every peer is sent an alert at most once, and never one that it is known to have.
An alert that is accepted becomes known to the peer that it came from and to all that are connected. -/
theorem alerts_once (events later : List Event) (i : Nat) {peer : AlertPeer}
    (there : (Run.final (step setting) start events).peers[i]? = some peer) :
    (peer.sent.map (Alert.getHash setting)).Nodup ∧
    (∃ peer', (Run.final (step setting) (Run.final (step setting) start events) later).peers[i]? = some peer' ∧
      ∃ news, peer'.sent = peer.sent ++ news ∧ ∀ alert ∈ news, alert.getHash setting ∉ peer.knownAlerts) ∧
    ∀ (now : Int) (origin : Nat) (payload : Data) (source : AlertPeer) (alert signed : Alert) (s : Stream),
      (Run.final (step setting) start events).peers[origin]? = some source → source.version ≠ 0 →
      Alert.read { bytes := payload, good := true } = some (alert, s) →
      (alert.processAlert setting now (Run.final (step setting) start events).mapAlerts).1 = some signed →
      (i = origin ∨ peer.connected = true) →
      ∃ peer', (step setting (Run.final (step setting) start events) (.alert now origin payload)).peers[i]? = some peer' ∧
        signed.getHash setting ∈ peer'.knownAlerts := by
  have once : ∀ (i : Nat) peer, (Run.final (step setting) start events).peers[i]? = some peer → Once setting peer :=
    Run.final_inv (fun node : Alerting => ∀ (i : Nat) peer, node.peers[i]? = some peer → Once setting peer)
      (fun _ event all => step_once all event) (fun i peer found => by simp [start] at found) events
  refine ⟨(once i peer there).1, ?_, ?_⟩
  · obtain ⟨peer', found, -, news, sent, -, new⟩ := final_tells later _ i there
    exact ⟨peer', found, news, sent, fun alert member => (new alert member).1⟩
  · intro now origin payload source alert signed s known heard read accepted told
    generalize Run.final (step setting) start events = node at *
    have run : step setting node (.alert now origin payload) = relay setting now signed origin
        { node with mapAlerts := (alert.processAlert setting now node.mapAlerts).2 } := by
      show receive setting now origin payload node = _
      unfold receive
      rw [known]
      dsimp only
      rw [if_neg heard, read]
      dsimp only
      rw [accepted]
    rw [run]
    obtain ⟨peer', found, -, own⟩ := @relay_tells setting now { node with
      mapAlerts := (alert.processAlert setting now node.mapAlerts).2 } i peer there signed origin
    exact ⟨peer', found, own (told.imp_right fun open_ => ⟨open_, Alert.inEffect_of_accepted accepted⟩)⟩

/-- A setting in which everything is signed. -/
def signedSetting : AlertSetting where
  verify _ _ := true
  hash data := Fin.ofNat _ (littleEndian data)
  version := 60001
  subVersion := []

/-- An alert to all versions, which nothing in its message cancels. -/
def sampleAlert : Alert where
  toUnsignedAlert := .null
  message := writeInt 4 1 ++ writeInt 8 2000 ++ writeInt 8 2000 ++ writeInt 4 5 ++ writeInt 4 0 ++ [0] ++ writeInt 4 0 ++
    writeInt 4 70000 ++ [0] ++ writeInt 4 0 ++ [0, 0, 0]
  signature := []

/-- Two peers, the first of which sends the alert twice. -/
def sampleEvents : List Event :=
  [.join, .join, .update 0 60001 [] true, .update 1 60001 [] true, .alert 1000 0 sampleAlert.write,
    .alert 1000 0 sampleAlert.write]

/-- The second one is sent the alert once. -/
theorem alerts_once_twice :
    ∃ peer, (Run.final (step signedSetting) start sampleEvents).peers[1]? = some peer ∧ peer.sent.length = 1 ∧
      (peer.sent.map (Alert.getHash signedSetting)).Nodup := by
  have one : ((Run.final (step signedSetting) start sampleEvents).peers[1]?).map (fun peer => peer.sent.length) =
      some 1 := by decide +kernel
  obtain ⟨peer, there, length⟩ := Option.map_eq_some_iff.mp one
  exact ⟨peer, there, length, (@alerts_once signedSetting sampleEvents [] 1 peer there).1⟩

end Alerting

end Libcoin
