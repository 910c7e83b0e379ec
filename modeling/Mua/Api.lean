import Mua.Session
import Mua.Variables

/-! # The API behind the dispatch table

api/dispatch.c over api/global.c and api/session.c. A call takes the stores and
an array of arguments; on an error the stores stay as they are. A caller says
what data pointer it gives a string, for the one place that asks.
-/

namespace Mua.Api

open Session

structure Stores where
  options : OptionStore
  vars : Variables
  session : Option SessionState

/-- The Lua bridge gives every string data, the RPC channel only one with bytes. -/
inductive Caller
  | lua
  | rpc
  deriving DecidableEq, Repr

def Caller.data : Caller → Bytes → Option Bytes
  | .lua, s => some s
  | .rpc, [] => none
  | .rpc, s => some s

/-- None where an assertion fails. -/
abbrev Outcome := Option (Except Error (Object × Stores))

def validation (text : String) : Error := ⟨.validation, ascii text⟩

def dispatchSetOption (st : Stores) : List Object → Outcome
  | [.string name, value] =>
    some ((optionsSet st.options name value).map fun options => (.nil, { st with options }))
  | _ => some (.error (validation "mua_set_option expects (string name, value)"))

def dispatchGetOption (st : Stores) : List Object → Outcome
  | [.string name] => some ((optionsGet st.options name).map fun value => (value, st))
  | _ => some (.error (validation "mua_get_option expects (string name)"))

def dispatchSetVar (caller : Caller) (st : Stores) : List Object → Outcome
  | [.string name, value] =>
    (variablesSet st.vars (caller.data name) value).map fun result =>
      result.map fun vars => (.nil, { st with vars })
  | _ => some (.error (validation "mua_set_var expects (string name, value)"))

def dispatchGetVar (caller : Caller) (st : Stores) : List Object → Outcome
  | [.string name] => (variablesGet st.vars (caller.data name)).map fun value => .ok (value, st)
  | _ => some (.error (validation "mua_get_var expects (string name)"))

def sessionResolve (st : Stores) (handle : Int32) : Except Error SessionState :=
  if handle ≠ 0 then
    .error ⟨.validation, ascii "unknown session handle: " ++ decimalInt handle.toInt⟩
  else
    match st.session with
    | none => .error (validation "no current session")
    | some sess => .ok sess

/-- The handle is an int: the high half of the argument is dropped. -/
def sessHandle : List Object → Except Error Int32
  | [] => .ok 0
  | [.integer n] => .ok n.toInt32
  | _ => .error (validation "expects an optional integer session handle")

def dispatchSessGetMessages (st : Stores) (args : List Object) : Outcome :=
  some <| (sessHandle args).bind fun handle => (sessionResolve st handle).bind fun sess =>
    (cjsonToObject (.array sess.messages)).map fun messages => (messages, st)

def dispatchSessGetId (st : Stores) (args : List Object) : Outcome :=
  some <| (sessHandle args).bind fun handle => (sessionResolve st handle).map fun sess =>
    (.string sess.id.data, st)

inductive ApiFn
  | setOption
  | getOption
  | setVar
  | getVar
  | sessGetMessages
  | sessGetId
  deriving DecidableEq, Repr

def ApiFn.name : ApiFn → Bytes
  | .setOption => ascii "mua_set_option"
  | .getOption => ascii "mua_get_option"
  | .setVar => ascii "mua_set_var"
  | .getVar => ascii "mua_get_var"
  | .sessGetMessages => ascii "mua_sess_get_messages"
  | .sessGetId => ascii "mua_sess_get_id"

def apiTable : List ApiFn :=
  [.setOption, .getOption, .setVar, .getVar, .sessGetMessages, .sessGetId]

def apiDispatchFind (name : Bytes) : Option ApiFn := apiTable.find? fun fn => fn.name == name

def ApiFn.call (fn : ApiFn) (caller : Caller) (st : Stores) (args : List Object) : Outcome :=
  match fn with
  | .setOption => dispatchSetOption st args
  | .getOption => dispatchGetOption st args
  | .setVar => dispatchSetVar caller st args
  | .getVar => dispatchGetVar caller st args
  | .sessGetMessages => dispatchSessGetMessages st args
  | .sessGetId => dispatchSessGetId st args

end Mua.Api
