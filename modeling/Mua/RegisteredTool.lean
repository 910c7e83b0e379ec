import Mua.CjsonTree
import Mua.JsonObject
import Mua.LuaSeams
import Mua.ReadTool

/-! # Tools registered from Lua

The arguments of a call go to the callback as a Lua value, and what it returns becomes the content
of the result: a string as it is, anything else as the JSON text of it, which is read back as a tree
with the content of the value.
-/

namespace Mua.Lua

open Agent Tools Cjson Rebuild

/-- A string verbatim, anything else JSON-encoded; the content is a C string. -/
def contentOf (lib : JsonLib) : Object → Bytes
  | .string s => cstr s
  | result => cstr (lib.print (objectToCJson result))

/-- A call, and the height of the Lua stack after it. -/
def registeredToolExecute (lib : JsonLib) (castOutside : Double → Int64) (limit : Nat) (name : Bytes)
    (callback : Built → PcallResult) (args : CJson) (height : Nat) : ToolResult × Nat :=
  match cjsonToObject args with
  | .error err => (fail (name ++ ascii ": " ++ err.msg), height)
  | .ok argsObj =>
    let (invoked, height) :=
      luaToolInvokeOnStack castOutside limit argsObj (callback (built argsObj)) height
    (⟨contentOf lib invoked.result, invoked.isError⟩, height)

/-- A tree with the content of a Lua value, as far as cJSON can hold it. -/
def Shows (heap : Heap) (value : Value) (tree : CJson) : Prop :=
  ∃ obj, obj.nesting ≤ kMarshalDepthCap ∧ DeepEq heap value (built obj) ∧ tree = objectToCJson obj

/-- The text is read back as the tree if the numbers in it are. -/
def ReadBack (num : NumLib) (tree : CJson) (content : Bytes) : Prop :=
  ∀ room, Within (NumberBack num) room tree →
    parseWithLength num content = .ok (clip tree, content.length)

inductive Answers (num : NumLib) : PcallResult → ToolResult → Prop
  | raised {msg : Option Bytes} :
      Answers num (.raised msg) (fail (cstr (msg.getD (ascii "tool callback raised"))))
  | string {heap : Heap} {s : Bytes} : Answers num (.returned heap (.string s)) (succeed (cstr s))
  | nothing {heap : Heap} : Answers num (.returned heap .nil) (succeed [])
  | refused {heap : Heap} {value : Value} (msg : Bytes) (hNil : value ≠ .nil)
      (h : ¬Storable heap kMarshalDepthCap value) : Answers num (.returned heap value) (fail msg)
  | shown {heap : Heap} {value : Value} {tree : CJson} {content : Bytes}
      (hString : ∀ s, value ≠ .string s) (h : Storable heap kMarshalDepthCap value)
      (hTree : Shows heap value tree) (hContent : content = cstr (printValue num tree))
      (hBack : ReadBack num tree content) : Answers num (.returned heap value) (succeed content)

variable {limit height cap room : Nat} {heap : Heap} {value : Value} {obj : Object}
  {castOutside : Double → Int64} {num : NumLib}

def agrees : Built → PcallResult := fun _ => .returned (fun _ => .empty) (.boolean true)

end Mua.Lua
