/-
`NameOperation`: what one transaction does to the names, found out by showing it the coins the
transaction spends (`input`) and then the outputs it creates (`output`).

* `NameOperation.input`, `output`, `checkFees` and `reserve` are the member functions of the same
  names. Each returns the operation it leaves.
* The evaluation of the name scripts is in `Primitives`.
-/

import Libcoin.Ledger.Types

namespace Libcoin

/-- `MIN_FIRSTUPDATE_DEPTH`. -/
def minFirstUpdateDepth : Int := 12

/-- The script that pays the network fee, `OP_RETURN` alone. -/
def opReturn : Script := [0x6a]

/-- The data members of `NameOperation`. -/
structure NameOperation where
  allowOverwrite : Bool
  nameIn : Script
  inputCount : Int
  nameOut : Script
  networkFee : Int
  requiresNetworkFee : Bool
  ignoreRules : Bool
  name : Data
  value : Data
  deriving DecidableEq, Repr

namespace NameOperation

/-- The constructor. It leaves `_input_count` and `_network_fee` as they are. -/
def new (prim : Primitives) (ignoreRules : Bool) : NameOperation :=
  { allowOverwrite := true, nameIn := [], inputCount := prim.indeterminate, nameOut := [],
    networkFee := prim.indeterminate, requiresNetworkFee := false, ignoreRules := ignoreRules,
    name := [], value := [] }

/-- `NameOperation::input`: also whether the coin carries a name. -/
def input (prim : Primitives) (op : NameOperation) (coin : Output) (count : Int) :
    Except Fault (NameOperation × Bool) :=
  let dropped := prim.getDropped coin.script
  if dropped.isEmpty then .ok (op, false)
  else
    let eval := prim.evalInput op.ignoreRules dropped
    if !eval.isNameScript then .ok (op, false)
    else if !op.allowOverwrite then .error (.error "Only one name pr transaction")
    else
      let op := { op with nameIn := dropped }
      .ok (if eval.isNameNew then { op with inputCount := count }
        else { op with allowOverwrite := false }, !eval.isNameNew)

/-- `NameOperation::output`: also whether the output is a name operation. A second name script in
the outputs builds an error that is not thrown. -/
def output (prim : Primitives) (op : NameOperation) (coin : Output) :
    Except Fault (NameOperation × Bool) :=
  if coin.script = opReturn then
    .ok ({ op with networkFee := wrap64 (op.networkFee + coin.value) }, false)
  else
    let dropped := prim.getDropped coin.script
    if op.nameOut.isEmpty && !dropped.isEmpty then
      let op := { op with nameOut := dropped }
      match prim.evalOutput op.ignoreRules op.nameIn dropped with
      | none => .error (.error "Invalid Name Script: ")
      | some eval =>
        if !eval.isNameScript then .ok (op, false)
        else if eval.isNameNew || op.nameIn.isEmpty then .ok (op, false)
        else
          let op := { op with value := eval.value }
          .ok (if eval.isFirstUpdate then { op with name := eval.name, requiresNetworkFee := true }
            else op, true)
    else .ok (op, false)

/-- `NameOperation::check_fees`. -/
def checkFees (op : NameOperation) (minFee : Int) : Except Fault Unit :=
  if op.requiresNetworkFee ∧ op.networkFee < minFee then .error (.error "Network fee too small")
  else .ok ()

/-- `NameOperation::reserve`. -/
def reserve (op : NameOperation) : Bool := op.requiresNetworkFee

end NameOperation

end Libcoin
