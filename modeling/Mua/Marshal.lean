import Mua.Number
import Mua.Options

/-! # Marshaling between cJSON and Object

The two converters of json.c. Their explicit stacks are the recursion here: the
`depth` of a node is the number of frames below it. What cJSON parses may nest
twice as deep as what `cjson_to_object` takes.
-/

namespace Mua

def kMarshalDepthCap : Nat := 32

def nestingExceeded : Error :=
  ⟨.validation, ascii "json nesting exceeds " ++ decimal kMarshalDepthCap⟩

mutual

/-- A container with `depth` frames below it, the root with none, must fit on the stack. -/
def cjsonToObjectAt (depth : Nat) : CJson → Except Error Object
  | .null => .ok .nil
  | .bool b => .ok (.boolean b)
  | .number d => .ok (if d.exactInt then .integer (Int64.ofInt d.trunc) else .float d)
  | .string s => .ok (.string (cstr s))
  | .array items =>
    if kMarshalDepthCap ≤ depth then .error nestingExceeded
    else (cjsonToItems (depth + 1) items).map .array
  | .object members =>
    if kMarshalDepthCap ≤ depth then .error nestingExceeded
    else (cjsonToMembers (depth + 1) members).map .dict

def cjsonToItems (depth : Nat) : List CJson → Except Error (List Object)
  | [] => .ok []
  | node :: rest => (cjsonToObjectAt depth node).bind fun item =>
    (cjsonToItems depth rest).map (item :: ·)

def cjsonToMembers (depth : Nat) : List (Bytes × CJson) → Except Error (List (Bytes × Object))
  | [] => .ok []
  | (key, node) :: rest => (cjsonToObjectAt depth node).bind fun value =>
    (cjsonToMembers depth rest).map ((cstr key, value) :: ·)

end

def cjsonToObject (node : CJson) : Except Error Object := cjsonToObjectAt 0 node

mutual

def objectToCJson : Object → CJson
  | .nil | .session => .null
  | .boolean b => .bool b
  | .integer n => .number (Double.ofInt n.toInt)
  | .float d => .number d
  | .string s => .string (cstr s)
  | .array items => .array (itemsToCJson items)
  | .dict items => .object (membersToCJson items)

def itemsToCJson : List Object → List CJson
  | [] => []
  | item :: rest => objectToCJson item :: itemsToCJson rest

def membersToCJson : List (Bytes × Object) → List (Bytes × CJson)
  | [] => []
  | (key, value) :: rest => (cstr key, objectToCJson value) :: membersToCJson rest

end

mutual

def Object.nulFree : Object → Bool
  | .nil | .boolean _ | .integer _ | .float _ | .session => true
  | .string s => decide (NulFree s)
  | .array items => itemsNulFree items
  | .dict items => membersNulFree items

def itemsNulFree : List Object → Bool
  | [] => true
  | item :: rest => item.nulFree && itemsNulFree rest

def membersNulFree : List (Bytes × Object) → Bool
  | [] => true
  | (key, value) :: rest => decide (NulFree key) && value.nulFree && membersNulFree rest

end

mutual

/-- The JSON text of an object, with the bytes of its strings as they are. -/
def Object.json : Object → CJson
  | .nil | .session => .null
  | .boolean b => .bool b
  | .integer n => .number (Double.ofInt n.toInt)
  | .float d => .number d
  | .string s => .string s
  | .array items => .array (itemsJson items)
  | .dict items => .object (membersJson items)

def itemsJson : List Object → List CJson
  | [] => []
  | item :: rest => item.json :: itemsJson rest

def membersJson : List (Bytes × Object) → List (Bytes × CJson)
  | [] => []
  | (key, value) :: rest => (key, value.json) :: membersJson rest

end

mutual

theorem objectToCJson_of_nulFree {obj : Object} (h : obj.nulFree = true) :
    objectToCJson obj = obj.json := by
  cases obj with
  | string s =>
    rw [Object.nulFree, decide_eq_true_eq] at h
    rw [objectToCJson, Object.json, cstr_of_nulFree h]
  | array items =>
    rw [Object.nulFree] at h
    rw [objectToCJson, Object.json, itemsToCJson_of_nulFree h]
  | dict items =>
    rw [Object.nulFree] at h
    rw [objectToCJson, Object.json, membersToCJson_of_nulFree h]
  | nil => rfl
  | boolean b => rfl
  | integer n => rfl
  | float d => rfl
  | session => rfl

theorem itemsToCJson_of_nulFree {items : List Object} (h : itemsNulFree items = true) :
    itemsToCJson items = itemsJson items := by
  cases items with
  | nil => rfl
  | cons item rest =>
    rw [itemsNulFree, Bool.and_eq_true] at h
    rw [itemsToCJson, itemsJson, objectToCJson_of_nulFree h.1, itemsToCJson_of_nulFree h.2]

theorem membersToCJson_of_nulFree {items : List (Bytes × Object)}
    (h : membersNulFree items = true) : membersToCJson items = membersJson items := by
  cases items with
  | nil => rfl
  | cons member rest =>
    obtain ⟨key, value⟩ := member
    rw [membersNulFree, Bool.and_eq_true, Bool.and_eq_true, decide_eq_true_eq] at h
    rw [membersToCJson, membersJson, cstr_of_nulFree h.1.1, objectToCJson_of_nulFree h.1.2,
      membersToCJson_of_nulFree h.2]

end

mutual

/-- How deep the containers of a tree nest; a scalar has none. -/
def CJson.nesting : CJson → Nat
  | .null | .bool _ | .number _ | .string _ => 0
  | .array items => itemsNesting items + 1
  | .object members => membersNesting members + 1

def itemsNesting : List CJson → Nat
  | [] => 0
  | node :: rest => max node.nesting (itemsNesting rest)

def membersNesting : List (Bytes × CJson) → Nat
  | [] => 0
  | (_, node) :: rest => max node.nesting (membersNesting rest)

end

mutual

def Object.nesting : Object → Nat
  | .nil | .boolean _ | .integer _ | .float _ | .string _ | .session => 0
  | .array items => Object.itemsNesting items + 1
  | .dict items => Object.membersNesting items + 1

def Object.itemsNesting : List Object → Nat
  | [] => 0
  | item :: rest => max item.nesting (Object.itemsNesting rest)

def Object.membersNesting : List (Bytes × Object) → Nat
  | [] => 0
  | (_, value) :: rest => max value.nesting (Object.membersNesting rest)

end

theorem Object.nesting_item {items : List Object} {item : Object} (h : item ∈ items) :
    item.nesting < (Object.array items).nesting := by
  rw [Object.nesting]
  induction items with
  | nil => cases h
  | cons head rest ih =>
    rw [Object.itemsNesting]
    rcases List.mem_cons.mp h with rfl | h
    · omega
    · have := ih h
      omega

theorem Object.nesting_member {items : List (Bytes × Object)} {member : Bytes × Object}
    (h : member ∈ items) : member.2.nesting < (Object.dict items).nesting := by
  rw [Object.nesting]
  induction items with
  | nil => cases h
  | cons head rest ih =>
    obtain ⟨key, value⟩ := head
    rw [Object.membersNesting]
    rcases List.mem_cons.mp h with rfl | h
    · dsimp only
      omega
    · have := ih h
      omega

theorem Object.itemsNesting_le {items : List Object} {room : Nat}
    (h : ∀ item ∈ items, item.nesting ≤ room) : (Object.array items).nesting ≤ room + 1 := by
  rw [Object.nesting]
  apply Nat.succ_le_succ
  induction items with
  | nil => exact Nat.zero_le room
  | cons item rest ih =>
    rw [Object.itemsNesting]
    exact Nat.max_le.mpr ⟨h item List.mem_cons_self,
      ih fun item hItem => h item (List.mem_cons_of_mem _ hItem)⟩

theorem Object.membersNesting_le {items : List (Bytes × Object)} {room : Nat}
    (h : ∀ member ∈ items, member.2.nesting ≤ room) : (Object.dict items).nesting ≤ room + 1 := by
  rw [Object.nesting]
  apply Nat.succ_le_succ
  induction items with
  | nil => exact Nat.zero_le room
  | cons member rest ih =>
    obtain ⟨key, value⟩ := member
    rw [Object.membersNesting]
    exact Nat.max_le.mpr ⟨h _ List.mem_cons_self,
      ih fun member hMember => h member (List.mem_cons_of_mem _ hMember)⟩

theorem itemsToCJson_eq (items : List Object) : itemsToCJson items = items.map objectToCJson := by
  induction items with
  | nil => rfl
  | cons item rest ih => rw [itemsToCJson, ih, List.map_cons]

theorem membersToCJson_eq (items : List (Bytes × Object)) :
    membersToCJson items = items.map fun m => (cstr m.1, objectToCJson m.2) := by
  induction items with
  | nil => rfl
  | cons member rest ih =>
    obtain ⟨key, value⟩ := member
    rw [membersToCJson, ih, List.map_cons]

theorem isOk_bind_map {α β γ : Type} {a : Except Error α} {b : Except Error β} {f : α → β → γ} :
    (a.bind fun x => b.map (f x)).isOk = true ↔ a.isOk = true ∧ b.isOk = true := by
  cases a with
  | error err => simp [Except.bind, Except.isOk, Except.toBool]
  | ok x => cases b <;> simp [Except.bind, Except.map, Except.isOk, Except.toBool]

theorem isOk_map {α β : Type} {a : Except Error α} {f : α → β} :
    (a.map f).isOk = a.isOk := by
  cases a <;> rfl

mutual

theorem cjsonToObjectAt_ok_iff {depth : Nat} (hDepth : depth ≤ kMarshalDepthCap) (node : CJson) :
    (cjsonToObjectAt depth node).isOk = true ↔ depth + node.nesting ≤ kMarshalDepthCap := by
  cases node with
  | null => simp [cjsonToObjectAt, CJson.nesting, hDepth, Except.isOk, Except.toBool]
  | bool b => simp [cjsonToObjectAt, CJson.nesting, hDepth, Except.isOk, Except.toBool]
  | number d => simp [cjsonToObjectAt, CJson.nesting, hDepth, Except.isOk, Except.toBool]
  | string s => simp [cjsonToObjectAt, CJson.nesting, hDepth, Except.isOk, Except.toBool]
  | array items =>
    rw [cjsonToObjectAt, CJson.nesting]
    split
    · simp [Except.isOk, Except.toBool]
      omega
    · rw [isOk_map, cjsonToItems_ok_iff (by omega)]
      omega
  | object members =>
    rw [cjsonToObjectAt, CJson.nesting]
    split
    · simp [Except.isOk, Except.toBool]
      omega
    · rw [isOk_map, cjsonToMembers_ok_iff (by omega)]
      omega

theorem cjsonToItems_ok_iff {depth : Nat} (hDepth : depth ≤ kMarshalDepthCap)
    (items : List CJson) :
    (cjsonToItems depth items).isOk = true ↔ depth + itemsNesting items ≤ kMarshalDepthCap := by
  cases items with
  | nil => simp [cjsonToItems, itemsNesting, hDepth, Except.isOk, Except.toBool]
  | cons node rest =>
    rw [cjsonToItems, itemsNesting, isOk_bind_map, cjsonToObjectAt_ok_iff hDepth,
      cjsonToItems_ok_iff hDepth]
    omega

theorem cjsonToMembers_ok_iff {depth : Nat} (hDepth : depth ≤ kMarshalDepthCap)
    (members : List (Bytes × CJson)) :
    (cjsonToMembers depth members).isOk = true ↔
      depth + membersNesting members ≤ kMarshalDepthCap := by
  cases members with
  | nil => simp [cjsonToMembers, membersNesting, hDepth, Except.isOk, Except.toBool]
  | cons member rest =>
    obtain ⟨key, node⟩ := member
    rw [cjsonToMembers, membersNesting, isOk_bind_map, cjsonToObjectAt_ok_iff hDepth,
      cjsonToMembers_ok_iff hDepth]
    omega

end

theorem cjsonToObject_ok_iff (node : CJson) :
    (cjsonToObject node).isOk = true ↔ node.nesting ≤ kMarshalDepthCap := by
  rw [cjsonToObject, cjsonToObjectAt_ok_iff (Nat.zero_le _), Nat.zero_add]

end Mua
