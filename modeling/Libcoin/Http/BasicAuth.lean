/-
Basic authentication, from the bytes of a request to the dispatch of a method.

* `Requests` says that a request is well formed, is read by the parser, and names a method; `Authorized` that it has
  the credentials of a user.
* A header may be replaced (`withAuthorization`), and the request names the same method as before.
-/

import Libcoin.Http.RequestHandler
import Libcoin.Http.RequestHead

namespace Libcoin

open RequestParser

/-! ### Letters -/

/-- A letter in upper case. -/
def toupper (c : UInt8) : UInt8 := if 97 ≤ c && c ≤ 122 then c - 32 else c

theorem tolower_toupper (c : UInt8) : tolower (toupper c) = tolower c := by
  unfold tolower toupper
  grind

theorem tolower_tolower (c : UInt8) : tolower (tolower c) = tolower c := by
  unfold tolower
  grind

theorem isalpha_tolower (c : UInt8) : isalpha (tolower c) = isalpha c := by
  unfold isalpha tolower
  grind

theorem tolower_of_isalpha {c : UInt8} (other : isalpha c = false) : tolower c = c := by
  unfold isalpha at other
  unfold tolower
  grind

theorem isalpha_of_fixed {c : UInt8} (low : tolower c = c) (high : toupper c = c) : isalpha c = false := by
  unfold tolower at low
  unfold toupper at high
  unfold isalpha
  grind

theorem map_eq_self {f : UInt8 → UInt8} {s : Data} : s.map f = s ↔ ∀ c ∈ s, f c = c := by
  have pointwise := @List.map_inj_left _ _ s f id
  rwa [List.map_id] at pointwise

theorem lower_lower (s : Data) : lower (lower s) = lower s := by
  rw [lower, lower, List.map_map]
  exact List.map_congr_left fun c _ => tolower_tolower c

theorem lower_upper (s : Data) : lower (s.map toupper) = lower s := by
  rw [lower, lower, List.map_map]
  exact List.map_congr_left fun c _ => tolower_toupper c

/-- A text without letters is the lower case of nothing else. -/
theorem lower_eq_iff {s t : Data} (plain : ∀ c ∈ t, isalpha c = false) : lower s = t ↔ s = t := by
  constructor
  · rintro rfl
    refine (map_eq_self.mpr fun c member => tolower_of_isalpha ?_).symm
    rw [← isalpha_tolower]
    exact plain _ (List.mem_map_of_mem member)
  · rintro rfl
    exact map_eq_self.mpr fun c member => tolower_of_isalpha (plain c member)

theorem plain_of_fixed {s : Data} (low : lower s = s) (high : s.map toupper = s) : ∀ c ∈ s, isalpha c = false :=
  fun c member => isalpha_of_fixed (map_eq_self.mp low c member) (map_eq_self.mp high c member)

/-! ### Credentials -/

/-- A user name and a password in base 64. -/
def credentials (user password : Data) : Data := base64 (user ++ text ":" ++ password)

theorem credentials_length (user password : Data) : 4 ≤ (credentials user password).length := by
  have colon : (text ":").length = 1 := rfl
  rw [credentials, Auth.length_base64, List.length_append, List.length_append, colon]
  omega

theorem credentials_ne_nil (user password : Data) : credentials user password ≠ [] := by
  intro none
  have long := credentials_length user password
  rw [none] at long
  exact absurd long (by decide)

theorem printed_of_base64 {c : UInt8} (is : isBase64 c = true) :
    isCtl c = false ∧ isCtl (tolower c) = false ∧ isCtl (toupper c) = false := by
  unfold isBase64 isalpha isdigit at is
  unfold isCtl tolower toupper
  grind

/-- In any case of its letters it may stand in a header. -/
theorem credentials_printed (user password : Data) : ∀ c ∈ credentials user password,
    isCtl c = false ∧ isCtl (tolower c) = false ∧ isCtl (toupper c) = false := by
  intro c member
  rcases Base64.mem_encode _ _ member with rfl | ⟨n, letter, rfl⟩
  · decide
  · exact printed_of_base64 (Auth.spell_letter n letter).1

/-- What `basic_auth` takes from the value of a header. -/
def afterScheme (auth : Data) : Data :=
  if 9 < auth.length && auth.take 6 = text "basic " then auth.drop 6 else []

namespace RequestHead

variable (head : RequestHead)

/-- A header with the scheme, in any case, and the credentials. -/
def Authorized (user password : Data) : Prop :=
  ∃ field ∈ head.fields, field.isAuthorization = true ∧ lower (field.value.take 6) = text "basic " ∧
    field.value.drop 6 = credentials user password

variable {head}

theorem authorization_eq {field : Field} (member : field ∈ head.fields) (is : field.isAuthorization = true) :
    head.authorization = some field.value := by
  have inside : field ∈ head.fields.filter Field.isAuthorization := List.mem_filter.mpr ⟨member, is⟩
  have single := head.single
  rw [authorization, ← List.head?_filter]
  cases found : head.fields.filter Field.isAuthorization with
  | nil =>
    rw [found] at inside
    cases inside
  | cons first rest =>
    rw [found, List.length_cons] at single
    rw [found, List.length_eq_zero_iff.mp (by omega : rest.length = 0), List.mem_singleton] at inside
    subst inside
    rfl

theorem authorized_iff {user password : Data} : head.Authorized user password ↔
    ∃ value, head.authorization = some value ∧ lower (value.take 6) = text "basic " ∧
      value.drop 6 = credentials user password := by
  constructor
  · rintro ⟨field, member, is, scheme, given⟩
    exact ⟨field.value, authorization_eq member is, scheme, given⟩
  · rintro ⟨value, found, scheme, given⟩
    obtain ⟨field, is, rfl⟩ := Option.map_eq_some_iff.mp found
    exact ⟨field, List.mem_of_find?_eq_some is, List.find?_some is, scheme, given⟩

/-- The credentials arrive in lower case. -/
theorem basicAuth_request (uri content : Data) :
    (head.request uri content).basicAuth = (head.authorization.map fun value => afterScheme (lower value)).getD [] := by
  unfold Request.basicAuth
  rw [show (head.request uri content).headers = head.headers from rfl, lookup_authorization]
  cases head.authorization <;> rfl

/-! ### Another header -/

/-- The header with some credentials. -/
def authorizationField (value : Data) (printed : ∀ c ∈ value, isCtl c = false) : Field :=
  { name := text "Authorization", value := value, named := by decide, token := by decide +kernel
    printed := printed }

/-- The same request with other credentials. -/
def withAuthorization (head : RequestHead) (value : Data) (printed : ∀ c ∈ value, isCtl c = false) : RequestHead :=
  { head with
    fields := head.fields.filter (fun field => !field.isAuthorization) ++ [authorizationField value printed]
    single := by
      have none : (head.fields.filter fun field => !field.isAuthorization).filter Field.isAuthorization = [] := by
        simp
      rw [List.filter_append, none, List.nil_append]
      exact List.length_filter_le _ [_] }

variable {value : Data} {printed : ∀ c ∈ value, isCtl c = false}

theorem withAuthorization_authorization : (head.withAuthorization value printed).authorization = some value :=
  @authorization_eq _ (authorizationField value printed) (List.mem_append_right _ List.mem_cons_self) rfl

theorem foldl_declare (fields : List Field) (length : Nat) :
    (fields.filter fun field => !field.isAuthorization).foldl Field.declare length =
      fields.foldl Field.declare length := by
  induction fields generalizing length with
  | nil => rfl
  | cons field fields ih =>
    by_cases is : field.isAuthorization = true
    · have other : field.declare length = length := by
        have name : lower field.name = text "authorization" := of_decide_eq_true is
        rw [Field.declare, name, if_neg (by decide)]
      rw [List.filter_cons_of_neg (by simp [is]), List.foldl_cons, other, ih]
    · rw [List.filter_cons_of_pos (by simp [is]), List.foldl_cons, List.foldl_cons, ih]

theorem withAuthorization_declared : (head.withAuthorization value printed).declared = head.declared := by
  show (_ ++ [authorizationField value printed]).foldl Field.declare 0 = _
  rw [List.foldl_append, foldl_declare]
  rfl

/-- The other headers are kept. -/
theorem withAuthorization_lookup {name : Data} (other : name ≠ text "authorization") :
    (head.withAuthorization value printed).headers.lookup name = head.headers.lookup name := by
  have kept : (head.withAuthorization value printed).fields.filter (fun field => decide (lower field.name = name)) =
      head.fields.filter fun field => decide (lower field.name = name) := by
    show (_ ++ [authorizationField value printed]).filter _ = _
    have none : [authorizationField value printed].filter (fun field => decide (lower field.name = name)) = [] :=
      List.filter_cons_of_neg fun same => other (of_decide_eq_true same).symm
    rw [List.filter_append, none, List.append_nil, List.filter_filter]
    refine List.filter_congr fun field _ => ?_
    by_cases is : lower field.name = name
    · simp [Field.isAuthorization, is, other]
    · simp [is]
  rw [headers, lookup_fields, kept, headers, lookup_fields]

end RequestHead

/-! ### Requests for a method -/

section Requests

variable (read : Data → Option JsonValue) (name : Data)

/-- A well-formed request, as it is written and with what follows, is read by the parser and names a method. -/
def Requests (head : RequestHead) (body : Data) (req : Request) : Prop :=
  (∃ rest p, parse (head.bytes ++ body) (reset, Request.empty) = (some true, rest, p, req)) ∧
    ∃ rpc, RPC.new read req = .ok rpc ∧ rpc.method = name

variable {read name} {head : RequestHead} {body : Data} {req : Request}

theorem Requests.basicAuth (requests : Requests read name head body req) :
    req.basicAuth = (head.authorization.map fun value => afterScheme (lower value)).getD [] := by
  obtain ⟨⟨rest, p, run⟩, -⟩ := requests
  obtain ⟨uri, -, -, rfl⟩ := head.parsed run
  exact RequestHead.basicAuth_request _ _

/-- With other credentials it names the same method. -/
theorem Requests.withAuthorization (requests : Requests read name head body req) (value : Data)
    (printed : ∀ c ∈ value, isCtl c = false) :
    ∃ req, Requests read name (head.withAuthorization value printed) body req := by
  obtain ⟨⟨rest, p, run⟩, rpc, found, named⟩ := requests
  obtain ⟨uri, decoded, enough, rfl⟩ := head.parsed run
  have declared := @RequestHead.withAuthorization_declared head value printed
  have complete := @RequestHead.parse_complete (head.withAuthorization value printed) uri body decoded (declared ▸ enough)
  rw [declared] at complete
  refine ⟨_, ⟨_, _, complete⟩, rpc, ?_, named⟩
  have mime : ((head.withAuthorization value printed).request uri (body.take head.declared)).mime =
      (head.request uri (body.take head.declared)).mime :=
    congrArg (Option.getD · []) (RequestHead.withAuthorization_lookup (by decide))
  rw [← found, RPC.new, RPC.new, mime]
  rfl

end Requests

/-! ### Protected methods -/

namespace RequestHandler

variable {Call : Type} {read : Data → Option JsonValue} {self : RequestHandler Call} {method : Method Call}
  {head : RequestHead} {body : Data} {req : Request}

theorem apply_others {later : List (Operation Call)} {name : Data} (others : ∀ op ∈ later, op.name ≠ name) :
    (later.foldl Operation.apply self).methods.lookup name = self.methods.lookup name ∧
      (later.foldl Operation.apply self).auths.lookup name = self.auths.lookup name := by
  induction later generalizing self with
  | nil => exact ⟨rfl, rfl⟩
  | cons op later ih =>
    obtain ⟨here, further⟩ := List.forall_mem_cons.mp others
    obtain ⟨methods, auths⟩ := @ih (op.apply self) further
    rw [List.foldl_cons, methods, auths]
    cases op with
    | register method auth =>
      refine ⟨AList.lookup_insert_ne here.symm, ?_⟩
      show (if auth.isNone then self.auths else self.auths.insert method.name auth).lookup name = _
      split
      · rfl
      · exact AList.lookup_insert_ne here.symm
    | unregister erased => exact ⟨AList.lookup_erase_ne here.symm, AList.lookup_erase_ne here.symm⟩

/-- A method that is named is dispatched unless its credentials are not those of the request. -/
theorem dispatched_iff (registered : self.methods.lookup method.name = some method)
    (requests : Requests read method.name head body req) :
    self.asyncExec read req = .dispatched method ↔
      ∀ auth, self.auths.lookup method.name = some auth → auth.valid req.basicAuth = true := by
  obtain ⟨-, ⟨version, id, _, params⟩, found, rfl⟩ := requests
  unfold asyncExec
  rw [found]
  simp only [registered]
  cases self.auths.lookup method.name with
  | none => simp
  | some auth =>
    by_cases valid : auth.valid req.basicAuth = true
    · simp [valid]
    · simp [valid]

/-! ### Exactness -/

theorem afterScheme_scheme {s : Data} (long : 4 ≤ s.length) : afterScheme (text "basic " ++ s) = s := by
  have length : (text "basic " ++ s).length = 6 + s.length := List.length_append
  rw [afterScheme, if_pos]
  · rfl
  · rw [length]
    simp
    exact ⟨by omega, rfl⟩

theorem scheme_of_afterScheme {auth s : Data} (nonempty : s ≠ []) (found : afterScheme auth = s) :
    auth.take 6 = text "basic " ∧ auth.drop 6 = s := by
  unfold afterScheme at found
  split at found
  · rename_i scheme
    simp only [Bool.and_eq_true, decide_eq_true_eq] at scheme
    exact ⟨scheme.2, found⟩
  · exact absurd found.symm nonempty

/-- Credentials without letters arrive as they are. -/
theorem dispatched_of_plain {user password : Data} (registered : self.methods.lookup method.name = some method)
    (stored : self.auths.lookup method.name = some ⟨credentials user password⟩)
    (plain : ∀ c ∈ credentials user password, isalpha c = false) (requests : Requests read method.name head body req) :
    self.asyncExec read req = .dispatched method ↔ head.Authorized user password := by
  have long := credentials_length user password
  have nonempty := credentials_ne_nil user password
  have colon : credentials user password ≠ Auth.encode64 (text ":") := by
    intro same
    rw [same] at plain
    exact absurd plain (by decide +kernel)
  have valid : ∀ auth, (⟨credentials user password⟩ : Auth).valid auth = true ↔ auth = credentials user password := by
    intro auth
    rw [Auth.valid, if_neg (by simpa [Auth.isNone] using nonempty), if_neg colon, decide_eq_true_eq]
    exact eq_comm
  rw [dispatched_iff registered requests, RequestHead.authorized_iff, requests.basicAuth, stored]
  simp only [Option.some.injEq, forall_eq', valid]
  constructor
  · intro given
    cases found : head.authorization with
    | none =>
      rw [found] at given
      exact absurd given.symm nonempty
    | some value =>
      rw [found] at given
      obtain ⟨scheme, sent⟩ := scheme_of_afterScheme nonempty given
      rw [lower, ← List.map_take] at scheme
      rw [lower, ← List.map_drop] at sent
      exact ⟨value, rfl, scheme, (lower_eq_iff plain).mp sent⟩
  · rintro ⟨value, found, scheme, sent⟩
    have split : lower value = text "basic " ++ credentials user password := by
      rw [← scheme, ← (lower_eq_iff plain).mpr sent, ← lower_append, List.take_append_drop]
    rw [found, Option.map_some, Option.getD_some, split, afterScheme_scheme long]

/-- An authorization that accepts something and not the empty string accepts what it stores. -/
theorem stored_of_valid {auth : Auth} {sent : Data} (valid : auth.valid sent = true) (invalid : auth.valid [] ≠ true) :
    auth.base64auth = sent := by
  unfold Auth.valid at valid invalid
  by_cases none : auth.isNone = true
  · rw [if_pos none] at invalid
    exact absurd rfl invalid
  · rw [if_neg none] at valid
    split at valid
    · cases valid
    · exact of_decide_eq_true valid

/-- Only credentials without letters are recognised. -/
theorem plain_of_exact {user password : Data} (registered : self.methods.lookup method.name = some method)
    (requests : Requests read method.name head body req)
    (exact : ∀ head body req, Requests read method.name head body req →
      (self.asyncExec read req = .dispatched method ↔ head.Authorized user password)) :
    self.auths.lookup method.name = some ⟨credentials user password⟩ ∧
      ∀ c ∈ credentials user password, isalpha c = false := by
  have long := credentials_length user password
  have printed := credentials_printed user password
  have sent : ∀ value, (∀ c ∈ value, isCtl c = false) →
      ((∀ auth, self.auths.lookup method.name = some auth → auth.valid (afterScheme (lower value)) = true) ↔
        lower (value.take 6) = text "basic " ∧ value.drop 6 = credentials user password) := by
    intro value printed
    obtain ⟨req', requests'⟩ := requests.withAuthorization value printed
    have given := requests'.basicAuth
    have same := exact _ _ _ requests'
    rw [RequestHead.withAuthorization_authorization, Option.map_some, Option.getD_some] at given
    rw [dispatched_iff registered requests', RequestHead.authorized_iff,
      RequestHead.withAuthorization_authorization, given] at same
    rw [same]
    exact ⟨fun ⟨_, found, form⟩ => Option.some.inj found ▸ form, fun form => ⟨value, rfl, form⟩⟩
  have scheme : ∀ s : Data, 4 ≤ s.length → (∀ c ∈ s, isCtl c = false) →
      ((∀ auth, self.auths.lookup method.name = some auth → auth.valid (lower s) = true) ↔
        s = credentials user password) := by
    intro s long printed
    have basic : ∀ c ∈ text "Basic ", isCtl c = false := by decide +kernel
    have both := sent (text "Basic " ++ s) fun c member => (List.mem_append.mp member).elim (basic c) (printed c)
    rw [lower_append, show lower (text "Basic ") = text "basic " from rfl, afterScheme_scheme
      (by rw [lower, List.length_map]; exact long)] at both
    rw [both]
    exact ⟨And.right, fun same => ⟨rfl, same⟩⟩
  -- without credentials it is not dispatched, so that some are stored
  have required := (sent [] (fun _ member => absurd member List.not_mem_nil)).not.mpr fun form =>
    absurd form.1 (by decide)
  obtain ⟨auth, required⟩ := not_forall.mp required
  obtain ⟨stored, invalid⟩ := Classical.not_imp.mp required
  have accepted := (scheme _ long fun c member => (printed c member).1).mpr rfl
  have low : lower (credentials user password) = credentials user password := by
    refine (scheme _ (by rw [lower, List.length_map]; exact long) ?_).mp ?_
    · intro c member
      obtain ⟨d, inside, rfl⟩ := List.mem_map.mp member
      exact (printed d inside).2.1
    · rw [lower_lower]
      exact accepted
  have high : (credentials user password).map toupper = credentials user password := by
    refine (scheme _ (by rw [List.length_map]; exact long) ?_).mp ?_
    · intro c member
      obtain ⟨d, inside, rfl⟩ := List.mem_map.mp member
      exact (printed d inside).2.2
    · rw [lower_upper]
      exact accepted
  have equal := stored_of_valid (accepted auth stored) invalid
  rw [low] at equal
  exact ⟨stored.trans (congrArg some (congrArg Auth.mk equal)), plain_of_fixed low high⟩

/-- A method that is registered with a user name and a password, and what is done with other methods later. -/
def withUser (self : RequestHandler Call) (method : Method Call) (user password : Data) (later : List (Operation Call)) :
    RequestHandler Call :=
  later.foldl Operation.apply (self.registerMethod method (Auth.ofUser user password))

theorem withUser_registered (user password : Data) {later : List (Operation Call)}
    (others : ∀ op ∈ later, op.name ≠ method.name) :
    (self.withUser method user password later).methods.lookup method.name = some method := by
  rw [withUser, (apply_others others).1]
  exact AList.lookup_insert _

/-- A name and a password whose size an `unsigned int` counts are stored in base 64. -/
theorem withUser_stored {user password : Data} (short : (user ++ text ":" ++ password).length < 2 ^ 32)
    {later : List (Operation Call)} (others : ∀ op ∈ later, op.name ≠ method.name) :
    (self.withUser method user password later).auths.lookup method.name = some ⟨credentials user password⟩ := by
  have written : Auth.ofUser user password = ⟨credentials user password⟩ := congrArg Auth.mk (Auth.encode64_eq short)
  have given : (⟨credentials user password⟩ : Auth).isNone ≠ true := by
    simpa [Auth.isNone] using credentials_ne_nil user password
  rw [withUser, (apply_others others).2, written]
  show (if (⟨credentials user password⟩ : Auth).isNone then self.auths else _).lookup _ = _
  rw [if_neg given]
  exact AList.lookup_insert _

/-- Whatever names the method, the right credentials are accepted and no others are, if and only if what is stored for
it is the base 64 of the name and the password, and has no letter. -/
theorem basicAuth_exact (read : Data → Option JsonValue) (self : RequestHandler Call) (method : Method Call)
    (user password : Data) (later : List (Operation Call)) (others : ∀ op ∈ later, op.name ≠ method.name) :
    ((∀ head body req, Requests read method.name head body req →
      ((self.withUser method user password later).asyncExec read req = .dispatched method ↔
        head.Authorized user password)) ↔
      ((self.withUser method user password later).auths.lookup method.name = some ⟨credentials user password⟩ ∧
        ∀ c ∈ credentials user password, isalpha c = false) ∨
      ∀ head body req, ¬Requests read method.name head body req) ∧
    ((user ++ text ":" ++ password).length < 2 ^ 32 →
      (self.withUser method user password later).auths.lookup method.name = some ⟨credentials user password⟩) ∧
    ∀ s, Auth.decode64 (Auth.encode64 s) = some s ↔ s.length ≤ 3 * (2 ^ 29 - 1) := by
  have registered := @withUser_registered _ self method user password later others
  refine ⟨⟨fun exact => ?_, ?_⟩, fun short => withUser_stored short others, Auth.decode64_encode64_iff⟩
  · by_cases named : ∃ head body req, Requests read method.name head body req
    · obtain ⟨head, body, req, requests⟩ := named
      exact .inl (plain_of_exact registered requests exact)
    · exact .inr fun head body req requests => named ⟨head, body, req, requests⟩
  · rintro (⟨stored, plain⟩ | none) head body req requests
    · exact dispatched_of_plain registered stored plain requests
    · exact absurd requests (none head body req)

end RequestHandler

/-! ### Fixed requests -/

namespace Small

/-- `GET /m HTTP/1.1` with some credentials. -/
def fetch (value : Data) (printed : ∀ c ∈ value, isCtl c = false) : RequestHead :=
  { method := text "GET", uri := text "/m", major := 49, minor := 49
    fields := [RequestHead.authorizationField value printed]
    named := by decide, token := by decide +kernel, printed := by decide +kernel, digits := by decide
    single := List.length_filter_le _ [_] }

def call : Method Unit := { name := text "m", call := () }

/-- A server without methods. -/
def server : RequestHandler Unit := { methods := ∅, auths := ∅ }

theorem fetch_requests (value : Data) (printed : ∀ c ∈ value, isCtl c = false) :
    Requests (fun _ => none) call.name (fetch value printed) [] ((fetch value printed).request (text "/m") []) := by
  have decoded : urlDecode (text "/m") = some (text "/m") := by decide +kernel
  exact ⟨⟨[], reset, (fetch value printed).parse_complete decoded (Nat.zero_le _)⟩, _, rfl, rfl⟩

end Small

open Libcoin.Small in
/-- The credentials of a user have upper case letters in base 64. -/
theorem basicAuth_fails :
    ¬((∀ (read : Data → Option JsonValue) (self : RequestHandler Unit) (method : Method Unit) (user password : Data)
      (later : List (RequestHandler.Operation Unit)), user ≠ [] ∨ password ≠ [] →
      (∀ op ∈ later, op.name ≠ method.name) → ∀ head body req, Requests read method.name head body req →
      ((self.withUser method user password later).asyncExec read req = .dispatched method ↔
        head.Authorized user password)) ∧
      ∀ s, Auth.decode64 (Auth.encode64 s) = some s) := by
  rintro ⟨claim, -⟩
  have printed : ∀ c ∈ text "Basic dXNlcjpwYXNz", isCtl c = false := by decide +kernel
  have requests := fetch_requests _ printed
  have others : ∀ op ∈ ([] : List (RequestHandler.Operation Unit)), op.name ≠ call.name :=
    fun _ member => absurd member List.not_mem_nil
  have stored := @RequestHandler.withUser_stored _ server call (text "user") (text "pass") (by decide) [] others
  have sent : (text "Basic dXNlcjpwYXNz").drop 6 = credentials (text "user") (text "pass") := by decide +kernel
  have refused : (⟨credentials (text "user") (text "pass")⟩ : Auth).valid
      (afterScheme (lower (text "Basic dXNlcjpwYXNz"))) = false := by decide +kernel
  have dispatched := (claim _ server call (text "user") (text "pass") [] (.inl (by decide)) others _ _ _ requests).mpr
    ⟨_, List.mem_cons_self, rfl, rfl, sent⟩
  rw [RequestHandler.dispatched_iff (RequestHandler.withUser_registered _ _ others) requests, requests.basicAuth] at dispatched
  exact Bool.false_ne_true (refused.symm.trans (dispatched _ stored))

open Libcoin.Small in
/-- A name of the bytes d3 and 4d, without a password, is 0006 in base 64. -/
theorem basicAuth_exact_digits :
    ∃ head req, Requests (fun _ => none) call.name head [] req ∧
      (server.withUser call [0xd3, 0x4d] [] []).asyncExec (fun _ => none) req = .dispatched call := by
  have printed : ∀ c ∈ text "Basic 0006", isCtl c = false := by decide +kernel
  have others : ∀ op ∈ ([] : List (RequestHandler.Operation Unit)), op.name ≠ call.name :=
    fun _ member => absurd member List.not_mem_nil
  have exact := RequestHandler.basicAuth_exact (fun _ => none) server call [0xd3, 0x4d] [] [] others
  have all := exact.1.mpr (.inl ⟨exact.2.1 (by decide), by decide +kernel⟩)
  have sent : (text "Basic 0006").drop 6 = credentials [0xd3, 0x4d] [] := by decide +kernel
  exact ⟨_, _, fetch_requests _ printed, (all _ _ _ (fetch_requests _ printed)).mpr
    ⟨_, List.mem_cons_self, rfl, rfl, sent⟩⟩

end Libcoin
