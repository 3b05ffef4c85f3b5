/-
`RequestHandler`: the methods that a server has, and what it does with a request.

* `RPC` finds the name of a method in a request: in the JSON of a `POST`, or in the path of a `GET`.
* `RequestHandler.registerMethod` and `unregisterMethod` change the methods and their credentials.
* `RequestHandler.asyncExec` dispatches a method, or answers with a status, an error or a document.
-/

import Libcoin.Http.RequestParser
import Mathlib.Data.List.SplitOn

namespace Libcoin

/-! ### Remote procedure calls -/

/-- `json_spirit::Value`. The value of a `real` is never looked at. -/
inductive JsonValue
  | obj (members : List (Data × JsonValue))
  | array (values : List JsonValue)
  | str (value : Data)
  | bool (value : Bool)
  | int (value : Int)
  | real
  | null

namespace JsonValue

/-- `find_value`. -/
def findValue (members : List (Data × JsonValue)) (name : Data) : JsonValue :=
  ((members.find? fun member => decide (member.1 = name)).map Prod.snd).getD .null

def isNull : JsonValue → Bool
  | .null => true
  | _ => false

end JsonValue

/-- The fields of `RPC` that a request sets. -/
structure RPC where
  version : Data
  id : JsonValue
  method : Data
  params : List JsonValue

namespace RPC

def empty : RPC := { version := [], id := .null, method := [], params := [] }

/-- `RPC::Error`. -/
inductive Error
  | unknownError
  | nameNotFound
  | invalidRequest
  | methodNotFound
  | invalidParams
  | internalError
  | parseError
  deriving DecidableEq, Repr

namespace Error

def code : Error → Int
  | .unknownError => -1
  | .nameNotFound => -4
  | .invalidRequest => -32600
  | .methodNotFound => -32601
  | .invalidParams => -32602
  | .internalError => -32603
  | .parseError => -32700

/-- The message where none is given. -/
def message : Error → Data
  | .invalidRequest => text "Invalid Request."
  | .methodNotFound => text "Method not found."
  | .invalidParams => text "Invalid params."
  | .internalError => text "Internal error."
  | .parseError => text "Parse error."
  | .unknownError | .nameNotFound => text "Server error."

end Error

def error (e : Error) (message : Data) : JsonValue :=
  .obj [(text "code", .int e.code), (text "message", .str (if message.isEmpty then e.message else message))]

def errorResponse (rpc : RPC) (err : JsonValue) : JsonValue :=
  .obj ((if rpc.version.isEmpty then [] else [(text "jsonrpc", .str rpc.version)]) ++ [(text "error", err)] ++
    if rpc.version ≠ text "2.0" then [(text "result", .null), (text "id", rpc.id)]
    else if rpc.id.isNull then [] else [(text "id", rpc.id)])

def response (rpc : RPC) (e : Error) (message : Data) : JsonValue := rpc.errorResponse (error e message)

/-- What a constructor throws: an error response, or the `out_of_range` of a string. -/
inductive Thrown
  | response (value : JsonValue)
  | outOfRange

/-- `parse(payload)`. `read` is what `json_spirit::read` makes of it. -/
def parsePayload (read : Data → Option JsonValue) (rpc : RPC) (payload : Data) : Except Thrown RPC :=
  match read payload with
  | some (.obj request) =>
    let rpc := match JsonValue.findValue request (text "jsonrpc") with
      | .str version => { rpc with version := version }
      | _ => rpc
    let rpc := { rpc with id := JsonValue.findValue request (text "id") }
    match JsonValue.findValue request (text "method") with
    | .null => .error (.response (rpc.response .parseError (text "Missing method.")))
    | .str method =>
      let rpc := { rpc with method := method }
      match JsonValue.findValue request (text "params") with
      | .array params => .ok { rpc with params := params }
      | .null => .ok { rpc with params := [] }
      | _ => .error (.response (rpc.response .parseError (text "Params must be an array")))
    | _ => .error (.response (rpc.response .parseError (text "Method must be a string")))
  | _ => .error (.response (rpc.response .parseError []))

/-- `parse(action, payload)`. -/
def parseAction (rpc : RPC) (action payload : Data) : RPC :=
  let rpc := { rpc with method := action }
  if payload.take 7 = text "params=" then
    { rpc with params := ((payload.drop 7).splitOnP fun c => c = 43 || c = 32).map JsonValue.str }
  else rpc

/-- `RPC(request)`. -/
def new (read : Data → Option JsonValue) (request : Request) : Except Thrown RPC :=
  if request.isPost && request.mime = text "application/json" then parsePayload read empty request.content
  else if request.isGet then
    -- `substr(1)` of an empty path
    if request.path.isEmpty then .error .outOfRange else .ok (empty.parseAction (request.path.drop 1) request.query)
  else .ok empty

end RPC

/-! ### The handler -/

/-- A method, with whatever it calls. -/
structure Method (Call : Type) where
  name : Data
  call : Call

structure RequestHandler (Call : Type) where
  methods : AList fun _ : Data => Method Call
  auths : AList fun _ : Data => Auth

namespace RequestHandler

/-- `Reply::Status`, as far as a handler sets it. -/
inductive Status
  | badRequest
  | unauthorized
  | notFound
  deriving DecidableEq, Repr

/-- What becomes of a request: a method is dispatched, or the handler answers itself. -/
inductive Answer (Call : Type)
  | dispatched (method : Method Call)
  | status (status : Status)
  | content (error : JsonValue)
  | document (path : Data)

variable {Call : Type}

def registerMethod (method : Method Call) (auth : Auth) (self : RequestHandler Call) : RequestHandler Call :=
  { methods := self.methods.insert method.name method
    auths := if auth.isNone then self.auths else self.auths.insert method.name auth }

def unregisterMethod (name : Data) (self : RequestHandler Call) : RequestHandler Call :=
  { methods := self.methods.erase name, auths := self.auths.erase name }

/-- The document for a path: without an extension it is the index, and nothing else is served. -/
def document (path : Data) : Answer Call :=
  if path.head? ≠ some 47 || decide (text ".." <:+: path) then .status .badRequest
  else if path.all fun c => decide (c ≠ 46) then .document (path ++ text "/index.html")
  else .status .badRequest

/-- `async_exec`. -/
def asyncExec (read : Data → Option JsonValue) (self : RequestHandler Call) (req : Request) : Answer Call :=
  match RPC.new read req with
  | .error (.response err) => .content err
  | .error .outOfRange => .status .notFound
  | .ok rpc =>
    match self.methods.lookup rpc.method with
    | some method =>
      match self.auths.lookup rpc.method with
      | some auth => if auth.valid req.basicAuth then .dispatched method else .status .unauthorized
      | none => .dispatched method
    | none => if !req.isGet then .content (rpc.response .methodNotFound []) else document req.path

/-- What the server does with its methods. -/
inductive Operation (Call : Type)
  | register (method : Method Call) (auth : Auth)
  | unregister (name : Data)

namespace Operation

def name : Operation Call → Data
  | .register method _ => method.name
  | .unregister name => name

def apply (self : RequestHandler Call) : Operation Call → RequestHandler Call
  | .register method auth => self.registerMethod method auth
  | .unregister name => self.unregisterMethod name

end Operation

end RequestHandler

end Libcoin
