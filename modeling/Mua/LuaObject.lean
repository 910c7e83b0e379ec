import Mua.Helpers
import Mua.LuaTable

/-! # The walks between Lua and the API

`lua_pop_object` and `object_to_lua` of bridge.c. A value that goes into an object
and out again is built of fresh tables, and equal to what went in.
-/

namespace Mua.Lua

open Rebuild

def intKey (n : Nat) : Value := .number (.ofInt (Int32.ofNat n).toInt)

theorem intKey_eq {n : Nat} (h : n < 2 ^ 31) : intKey n = .number (.ofInt n) := by
  rw [intKey, Int32.toInt_ofNat_of_lt h]

def typeName : OtherType → Bytes
  | .lightuserdata | .userdata => ascii "userdata"
  | .function => ascii "function"
  | .thread => ascii "thread"
  | .cdata => ascii "cdata"

def cannotStore (type : OtherType) : Error := ⟨.validation, ascii "cannot store a " ++ typeName type⟩

def badKeys : Error :=
  ⟨.validation, ascii "cannot store a table with mixed, holed, or non-string keys"⟩

def tableTooDeep : Error :=
  ⟨.validation, ascii "table nesting exceeds " ++ decimal kMarshalDepthCap ++
    ascii " (cyclic table?)"⟩

def Value.isTable : Value → Bool
  | .table _ => true
  | _ => false

def scalarize : Value → Except Error Object
  | .boolean b => .ok (.boolean b)
  | .number num => .ok (if num.exactInt then .integer (Int64.ofInt num.trunc) else .float num)
  | .string s => .ok (.string s)
  | .other type _ => .error (cannotStore type)
  | _ => .ok .nil

def keyBytes : Value → Bytes
  | .string s => s
  | _ => []

/-- The children of a table: by index, or under the keys gathered before. -/
def tableChildren (kind : TableKind) (t : Table) : List (Bytes × Value) :=
  match kind with
  | .array => (List.range t.entries.length).map fun i => ([], t.rawget (intKey (i + 1)))
  | .dict => t.entries.map fun e => (keyBytes e.1, t.rawget (.string (keyBytes e.1)))
  | .invalid => []

/-- `lua_pop_object` over a heap. `table_init` is the entry of a table. -/
def popSource (castOutside : Double → Int64) (heap : Heap) :
    Source Value Object Bytes TableKind Unit Error where
  isNode := Value.isTable
  leaf value s := (scalarize value).map fun obj => (obj, s)
  enter
    | .table id, s =>
      match classifyTable castOutside (heap id) with
      | .invalid => .error badKeys
      | kind => .ok (kind, s)
    | _, s => .ok (.invalid, s)
  children
    | .table id => tableChildren (classifyTable castOutside (heap id)) (heap id)
    | _ => []
  build kind items := if kind = .dict then .dict items else .array (items.map (·.2))
  stub := .nil
  cap := kMarshalDepthCap
  tooDeep := tableTooDeep

def luaPopObject (castOutside : Double → Int64) (heap : Heap) (value : Value) :
    Except Error Object :=
  match (popSource castOutside heap).run value () with
  | .ok (obj, ()) => .ok obj
  | .error (err, _) => .error err

inductive Built
  | nil
  | boolean (b : Bool)
  | number (d : Double)
  | string (s : Bytes)
  | table (entries : List (Value × Built))

/-- `lua_rawset` on a fresh table. -/
def rawset (entries : List (Value × Built)) (key : Value) : Built → List (Value × Built)
  | .nil => entries.filter fun e => !rawEqual e.1 key
  | value =>
    if entries.any fun e => rawEqual e.1 key then
      entries.map fun e => if rawEqual e.1 key then (e.1, value) else e
    else entries ++ [(key, value)]

def pushScalar : Object → Built
  | .boolean b => .boolean b
  | .integer n => .number (.ofInt n.toInt)
  | .float d => .number d
  | .string s => .string s
  | _ => .nil

def objectTooDeep : Error :=
  ⟨.exception, ascii "object nesting exceeds " ++ decimal kMarshalDepthCap⟩

def fillTable (items : List (Value × Built)) : Built :=
  .table (items.foldl (fun entries item => rawset entries item.1 item.2) [])

def pushSource : Source Object Built Value Unit Unit Error where
  isNode := Object.isContainer
  leaf obj s := .ok (pushScalar obj, s)
  enter _ s := .ok ((), s)
  children
    | .array items => items.mapIdx fun i item => (intKey (i + 1), item)
    | .dict items => items.map fun member => (.string member.1, member.2)
    | _ => []
  build _ items := fillTable items
  stub := .nil
  cap := kMarshalDepthCap
  tooDeep := objectTooDeep

def objectToLua (obj : Object) : Except Error Built :=
  match pushSource.run obj () with
  | .ok (value, ()) => .ok value
  | .error (err, _) => .error err

mutual

/-- What `object_to_lua` makes of an object. -/
def built : Object → Built
  | .array items => fillTable (itemsBuilt 0 items)
  | .dict items => fillTable (membersBuilt items)
  | obj => pushScalar obj

def itemsBuilt (i : Nat) : List Object → List (Value × Built)
  | [] => []
  | item :: rest => (intKey (i + 1), built item) :: itemsBuilt (i + 1) rest

def membersBuilt : List (Bytes × Object) → List (Value × Built)
  | [] => []
  | (key, value) :: rest => (.string key, built value) :: membersBuilt rest

end

theorem itemsBuilt_mapIdx (i : Nat) (items : List Object) :
    itemsBuilt i items = items.mapIdx fun j item => (intKey (i + j + 1), built item) := by
  induction items generalizing i with
  | nil => rfl
  | cons item rest ih =>
    rw [itemsBuilt, ih, List.mapIdx_cons]
    simp only [Nat.add_zero, Nat.add_assoc, Nat.add_comm 1]

theorem itemsBuilt_zip (i : Nat) (items : List Object) :
    itemsBuilt i items =
      ((List.range' i items.length).map fun j => intKey (j + 1)).zip (items.map built) := by
  induction items generalizing i with
  | nil => rfl
  | cons item rest ih =>
    rw [itemsBuilt, ih, List.length_cons, List.range'_succ]
    rfl

theorem membersBuilt_zip (items : List (Bytes × Object)) :
    membersBuilt items =
      (items.map fun m => Value.string m.1).zip ((items.map (·.2)).map built) := by
  induction items with
  | nil => rfl
  | cons member rest ih =>
    obtain ⟨key, value⟩ := member
    rw [membersBuilt, ih]
    rfl

theorem membersBuilt_map (items : List (Bytes × Object)) :
    membersBuilt items = items.map fun m => (Value.string m.1, built m.2) := by
  induction items with
  | nil => rfl
  | cons member rest ih =>
    obtain ⟨key, value⟩ := member
    rw [membersBuilt, ih]
    rfl

theorem pushSource_maps : pushSource.Maps built Object.nesting where
  leaf obj s h := by
    cases obj with
    | array items => cases h
    | dict items => cases h
    | _ => rfl
  node obj s h := by
    cases obj with
    | array items =>
      refine ⟨(), rfl, ?_⟩
      change fillTable _ = fillTable _
      rw [itemsBuilt_mapIdx]
      simp [pushSource, List.mapIdx_eq_zipIdx_map, Function.comp_def]
    | dict items =>
      refine ⟨(), rfl, ?_⟩
      change fillTable _ = fillTable _
      rw [membersBuilt_map]
      simp [pushSource, Function.comp_def]
    | _ => cases h
  child obj h := by
    cases obj with
    | array items =>
      refine ⟨by simp [Object.nesting], fun c hc => ?_⟩
      obtain ⟨i, hi, rfl⟩ := List.mem_mapIdx.mp hc
      exact Object.nesting_item (List.getElem_mem hi)
    | dict items =>
      refine ⟨by simp [Object.nesting], fun c hc => ?_⟩
      obtain ⟨member, hMember, rfl⟩ := List.mem_map.mp hc
      have hNesting := Object.nesting_member hMember
      exact hNesting
    | _ => cases h

theorem objectToLua_eq {obj : Object} (h : obj.nesting ≤ kMarshalDepthCap) :
    objectToLua obj = .ok (built obj) := by
  rw [objectToLua, Source.run_of_maps (by decide) pushSource_maps obj h]

/-- A tree of at most `room` nested tables, each a sequence or a record, over scalars. -/
def Storable (heap : Heap) : Nat → Value → Prop
  | _, .boolean _ | _, .number _ | _, .string _ => True
  | room + 1, .table id =>
    ((∃ n, (heap id).IsSequence n) ∨ (heap id).IsRecord) ∧
      ∀ e ∈ (heap id).entries, Storable heap room e.2
  | _, _ => False

mutual

/-- Lua's equality, tables by their content; a NaN stands for a NaN. -/
def DeepEq (heap : Heap) : Value → Built → Prop
  | .nil, .nil => True
  | .boolean a, .boolean b => a = b
  | .number a, .number b => a.equals b = true ∨ (a.isNaN = true ∧ b.isNaN = true)
  | .string s, .string t => s = t
  | .table id, .table entries =>
    (∀ key, (heap id).rawget key ≠ .nil ↔ ∃ e ∈ entries, rawEqual e.1 key = true) ∧
      EntriesEq heap (heap id) entries
  | _, _ => False

def EntriesEq (heap : Heap) (t : Table) : List (Value × Built) → Prop
  | [] => True
  | (key, value) :: rest => DeepEq heap (t.rawget key) value ∧ EntriesEq heap t rest

end

theorem entriesEq_iff {heap : Heap} {t : Table} {entries : List (Value × Built)} :
    EntriesEq heap t entries ↔ ∀ e ∈ entries, DeepEq heap (t.rawget e.1) e.2 := by
  induction entries with
  | nil => simp [EntriesEq]
  | cons entry rest ih =>
    obtain ⟨key, value⟩ := entry
    rw [EntriesEq, ih, List.forall_mem_cons]

theorem foldl_rawset {items acc : List (Value × Built)}
    (hValues : ∀ e ∈ items, e.2 ≠ .nil)
    (hKeys : (acc ++ items).Pairwise fun a b => rawEqual a.1 b.1 = false) :
    items.foldl (fun entries item => rawset entries item.1 item.2) acc = acc ++ items := by
  induction items generalizing acc with
  | nil => rw [List.foldl_nil, List.append_nil]
  | cons item rest ih =>
    obtain ⟨key, value⟩ := item
    obtain ⟨hHead, hRest⟩ := List.forall_mem_cons.mp hValues
    have hNew : ¬ (acc.any fun e => rawEqual e.1 key) = true := by
      rw [List.any_eq_true]
      rintro ⟨e, he, hEqual⟩
      have := (List.pairwise_append.mp hKeys).2.2 e he _ List.mem_cons_self
      rw [this] at hEqual
      cases hEqual
    have hSet : rawset acc key value = acc ++ [(key, value)] := by
      cases value with
      | nil => exact absurd rfl hHead
      | _ => rw [rawset, if_neg hNew]; rintro ⟨⟩
    rw [List.foldl_cons, hSet, ih hRest (by rwa [List.append_assoc, List.singleton_append]),
      List.append_assoc, List.singleton_append]

section RoundTrip

variable {castOutside : Double → Int64} {heap : Heap}

def Stored (heap : Heap) (room : Nat) (value : Value) (obj : Object) : Prop :=
  obj.nesting ≤ room ∧ DeepEq heap value (built obj)

theorem built_ne_nil {value : Value} {obj : Object} (hNil : value ≠ .nil)
    (h : DeepEq heap value (built obj)) : built obj ≠ .nil := by
  intro hBuilt
  rw [hBuilt] at h
  cases value with
  | nil => exact hNil rfl
  | _ => exact h

structure Keys (t : Table) (keys : List Value) : Prop where
  self : ∀ k ∈ keys, rawEqual k k = true
  distinct : keys.Pairwise fun a b => rawEqual a b = false
  cover : ∀ key, t.rawget key ≠ .nil ↔ ∃ k ∈ keys, rawEqual k key = true

theorem Keys.present {t : Table} {keys : List Value} (h : Keys t keys) {k : Value}
    (hk : k ∈ keys) : t.rawget k ≠ .nil := (h.cover k).mpr ⟨k, hk, h.self k hk⟩

theorem Keys.forall_values {t : Table} {keys : List Value} (h : Keys t keys) (P : Value → Prop) :
    (∀ k ∈ keys, P (t.rawget k)) ↔ ∀ e ∈ t.entries, P e.2 := by
  constructor
  · intro hAll e he
    have hPresent : t.rawget e.1 ≠ .nil := by
      rw [Table.rawget_self he]
      exact t.present e he
    obtain ⟨k, hk, hEqual⟩ := (h.cover e.1).mp hPresent
    have hValue := hAll k hk
    rwa [Table.rawget_of_mem he (rawEqual_symm hEqual)] at hValue
  · intro hAll k hk
    obtain ⟨e, he, hEqual⟩ := Table.rawget_ne_nil_iff.mp (h.present hk)
    rw [Table.rawget_of_mem he hEqual]
    exact hAll e he

theorem sequence_keys {t : Table} (h : t.IsSequence t.entries.length) :
    Keys t ((List.range t.entries.length).map fun i => intKey (i + 1)) := by
  have hSmall := t.small
  have hKey : ∀ i, i < t.entries.length → intKey (i + 1) = .number (.ofInt (i + 1 : Nat)) :=
    fun i hi => intKey_eq (by omega)
  constructor
  · intro k hk
    obtain ⟨i, hi, rfl⟩ := List.mem_map.mp hk
    rw [List.mem_range] at hi
    rw [hKey i hi]
    exact rawEqual_ofInt (by omega) (by omega)
  · rw [List.pairwise_map]
    refine List.pairwise_lt_range.imp_of_mem ?_
    intro i j hi hj hLt
    rw [List.mem_range] at hi hj
    rw [hKey i hi, hKey j hj, Bool.eq_false_iff]
    intro hEqual
    have hSame := Double.eq_of_equals (by omega) (by omega) hEqual
    have := Double.ofInt_injective (by omega) (by omega) (by omega) (by omega) hSame
    omega
  · intro key
    rw [h key]
    constructor
    · rintro ⟨i, hPos, hLe, hEqual⟩
      refine ⟨_, List.mem_map.mpr ⟨i - 1, List.mem_range.mpr (by omega), rfl⟩, ?_⟩
      rw [hKey (i - 1) (by omega), Nat.sub_add_cancel hPos]
      exact rawEqual_symm hEqual
    · rintro ⟨k, hk, hEqual⟩
      obtain ⟨i, hi, rfl⟩ := List.mem_map.mp hk
      rw [List.mem_range] at hi
      rw [hKey i hi] at hEqual
      exact ⟨i + 1, by omega, by omega, rawEqual_symm hEqual⟩

theorem record_keys {t : Table} (h : ∀ e ∈ t.entries, isString e.1 = true) :
    Keys t (t.entries.map fun e => .string (keyBytes e.1)) := by
  have hKeys : (t.entries.map fun e => Value.string (keyBytes e.1)) = t.entries.map (·.1) := by
    apply List.map_congr_left
    intro e he
    have hString := h e he
    cases hKey : e.1 with
    | string s => rfl
    | _ => rw [hKey] at hString; cases hString
  rw [hKeys]
  constructor
  · intro k hk
    obtain ⟨e, he, rfl⟩ := List.mem_map.mp hk
    exact (t.keyed e he).2
  · rw [List.pairwise_map]
    exact t.distinct
  · intro key
    rw [Table.rawget_ne_nil_iff]
    constructor
    · rintro ⟨e, he, hEqual⟩
      exact ⟨e.1, List.mem_map_of_mem he, hEqual⟩
    · rintro ⟨k, hk, hEqual⟩
      obtain ⟨e, he, rfl⟩ := List.mem_map.mp hk
      exact ⟨e, he, hEqual⟩

theorem deepEq_table {id : Nat} {keys : List Value} {values : List Built}
    (hKeys : Keys (heap id) keys)
    (hValues : List.Forall₂ (fun k v => DeepEq heap ((heap id).rawget k) v ∧ v ≠ .nil) keys values) :
    DeepEq heap (.table id) (fillTable (keys.zip values)) := by
  have hLength := hValues.length_eq
  have hEntries : ∀ e ∈ keys.zip values, DeepEq heap ((heap id).rawget e.1) e.2 ∧ e.2 ≠ .nil :=
    fun e he => (List.forall₂_iff_zip.mp hValues).2 he
  have hFst : (keys.zip values).map Prod.fst = keys :=
    List.map_fst_zip (Nat.le_of_eq hLength)
  have hDistinct : (keys.zip values).Pairwise fun a b => rawEqual a.1 b.1 = false := by
    have hPairwise := hKeys.distinct
    rw [← hFst] at hPairwise
    exact List.pairwise_map.mp hPairwise
  rw [fillTable, foldl_rawset (fun e he => (hEntries e he).2) hDistinct, List.nil_append, DeepEq]
  refine ⟨fun key => ?_, entriesEq_iff.mpr fun e he => (hEntries e he).1⟩
  rw [hKeys.cover]
  constructor
  · rintro ⟨k, hk, hEqual⟩
    rw [← hFst] at hk
    obtain ⟨e, he, rfl⟩ := List.mem_map.mp hk
    exact ⟨e, he, hEqual⟩
  · rintro ⟨e, he, hEqual⟩
    exact ⟨e.1, hFst ▸ List.mem_map_of_mem he, hEqual⟩

theorem deepEq_number (d : Double) :
    DeepEq heap (.number d)
      (built (if d.exactInt then .integer (Int64.ofInt d.trunc) else .float d)) := by
  split
  · rename_i hExact
    have hBound : d.trunc.natAbs ≤ 2 ^ 53 := by
      simp only [Double.exactInt, Bool.and_eq_true, decide_eq_true_eq] at hExact
      exact hExact.2
    have hFinite : d.isFinite = true := by
      simp only [Double.exactInt, Bool.and_eq_true] at hExact
      exact hExact.1.1
    rw [built, pushScalar, DeepEq, Int64.toInt_ofInt_of_le (by omega) (by omega)]
    · exact .inl ((Double.ofInt_trunc hExact).equals (Double.isNaN_of_isFinite hFinite))
    · rintro items ⟨⟩
    · rintro items ⟨⟩
  · rw [built, pushScalar, DeepEq]
    · cases hNaN : d.isNaN with
      | true => exact .inr ⟨rfl, rfl⟩
      | false => exact .inl (Double.equals_refl hNaN)
    · rintro items ⟨⟩
    · rintro items ⟨⟩

def StoredAll (heap : Heap) (room : Nat) (cs : List (Bytes × Value))
    (objs : List (Bytes × Object)) : Prop :=
  List.Forall₂ (fun c o => c.1 = o.1 ∧ c.2 ≠ .nil ∧ Stored heap room c.2 o.2) cs objs

theorem StoredAll.nesting {room : Nat} {cs : List (Bytes × Value)}
    {objs : List (Bytes × Object)} (h : StoredAll heap room cs objs) :
    ∀ o ∈ objs, o.2.nesting ≤ room := by
  intro o ho
  obtain ⟨i, hi, rfl⟩ := List.mem_iff_getElem.mp ho
  have hLt : i < cs.length := by
    rw [List.Forall₂.length_eq h]
    exact hi
  exact (h.get hLt hi).2.2.1

theorem StoredAll.values {room : Nat} {t : Table} {keys : List Value} (label : Value → Bytes)
    {objs : List (Bytes × Object)}
    (h : StoredAll heap room (keys.map fun k => (label k, t.rawget k)) objs) :
    List.Forall₂ (fun k v => DeepEq heap (t.rawget k) v ∧ v ≠ .nil) keys
      ((objs.map (·.2)).map built) := by
  rw [StoredAll, List.forall₂_map_left_iff] at h
  rw [List.map_map, List.forall₂_map_right_iff]
  exact h.imp fun k o hStored => ⟨hStored.2.2.2, built_ne_nil hStored.2.1 hStored.2.2.2⟩

theorem stored_array {room id : Nat} {objs : List (Bytes × Object)}
    (hSequence : (heap id).IsSequence (heap id).entries.length)
    (h : StoredAll heap room (tableChildren .array (heap id)) objs) :
    Stored heap (room + 1) (.table id) (.array (objs.map (·.2))) := by
  constructor
  · apply Object.itemsNesting_le
    intro item hItem
    obtain ⟨o, ho, rfl⟩ := List.mem_map.mp hItem
    exact h.nesting o ho
  · have hLength : (objs.map (·.2)).length = (heap id).entries.length := by
      have := h.length_eq
      rw [tableChildren, List.length_map, List.length_range] at this
      rw [List.length_map, this]
    rw [built, itemsBuilt_zip, hLength, ← List.range_eq_range']
    have hChildren : tableChildren .array (heap id) =
        ((List.range (heap id).entries.length).map fun i => intKey (i + 1)).map
          fun k => ([], (heap id).rawget k) := by
      rw [List.map_map]
      rfl
    rw [hChildren] at h
    exact deepEq_table (sequence_keys hSequence) (h.values fun _ => [])

theorem stored_dict {room id : Nat} {objs : List (Bytes × Object)}
    (hStrings : ∀ e ∈ (heap id).entries, isString e.1 = true)
    (h : StoredAll heap room (tableChildren .dict (heap id)) objs) :
    Stored heap (room + 1) (.table id) (.dict objs) := by
  constructor
  · exact Object.membersNesting_le h.nesting
  · have hKeys : (objs.map fun m => Value.string m.1) =
        (heap id).entries.map fun e => .string (keyBytes e.1) := by
      have hLabels : (tableChildren .dict (heap id)).map (·.1) = objs.map (·.1) := by
        rw [← List.forall₂_eq_eq_eq, List.forall₂_map_left_iff, List.forall₂_map_right_iff]
        exact h.imp fun c o hStored => hStored.1
      have hStrings := congrArg (List.map Value.string) hLabels
      rw [tableChildren, List.map_map, List.map_map, List.map_map] at hStrings
      exact hStrings.symm
    rw [built, membersBuilt_zip, hKeys]
    have hChildren : tableChildren .dict (heap id) =
        ((heap id).entries.map fun e => Value.string (keyBytes e.1)).map
          fun k => (keyBytes k, (heap id).rawget k) := by
      rw [List.map_map]
      rfl
    rw [hChildren] at h
    exact deepEq_table (record_keys hStrings) (h.values keyBytes)

theorem tableChildren_forall {t : Table} {kind : TableKind}
    (hKind : classifyTable castOutside t = kind) (hValid : kind ≠ .invalid) (P : Value → Prop) :
    ((∀ c ∈ tableChildren kind t, P c.2) ↔ ∀ e ∈ t.entries, P e.2) ∧
      ∀ c ∈ tableChildren kind t, c.2 ≠ .nil := by
  cases kind with
  | array =>
    have hKeys := sequence_keys (classify_array hKind)
    rw [← hKeys.forall_values]
    constructor
    · simp only [tableChildren, List.forall_mem_map]
    · have := fun k hk => hKeys.present (k := k) hk
      simpa only [tableChildren, List.forall_mem_map] using this
  | dict =>
    have hKeys := record_keys (classify_dict hKind)
    rw [← hKeys.forall_values]
    constructor
    · simp only [tableChildren, List.forall_mem_map]
    · have := fun k hk => hKeys.present (k := k) hk
      simpa only [tableChildren, List.forall_mem_map] using this
  | invalid => exact absurd rfl hValid

theorem storable_table {room id : Nat} {kind : TableKind}
    (hKind : classifyTable castOutside (heap id) = kind) (hValid : kind ≠ .invalid) :
    Storable heap (room + 1) (.table id) ↔
      ∀ c ∈ tableChildren kind (heap id), Storable heap room c.2 := by
  rw [(tableChildren_forall hKind hValid (Storable heap room)).1, Storable]
  constructor
  · exact fun h => h.2
  · refine fun h => ⟨?_, h⟩
    by_contra hNeither
    exact hValid (hKind.symm.trans (classify_invalid_iff.mpr hNeither))

/-- A value is taken exactly when it is storable, as an object that comes back as it was. -/
def Pops (heap : Heap) (room : Nat) (value : Value) :
    Source.Result Object Unit Error → Prop
  | .ok (obj, _) => Storable heap room value ∧ Stored heap room value obj
  | .error _ => ¬ Storable heap room value

def PopsAll (heap : Heap) (room : Nat) (cs : List (Bytes × Value)) :
    Source.Result (List (Bytes × Object)) Unit Error → Prop
  | .ok (objs, _) => (∀ c ∈ cs, Storable heap room c.2) ∧ StoredAll heap room cs objs
  | .error _ => ¬ ∀ c ∈ cs, Storable heap room c.2

theorem pops_scalar {room : Nat} {value : Value} {obj : Object} (hNil : value ≠ .nil)
    (hTable : value.isTable = false) (h : scalarize value = .ok obj) :
    Storable heap room value ∧ Stored heap room value obj := by
  cases value with
  | nil => exact absurd rfl hNil
  | boolean b =>
    cases h
    exact ⟨by cases room <;> trivial, Nat.zero_le room, rfl⟩
  | number d =>
    cases h
    refine ⟨by cases room <;> trivial, ?_, deepEq_number d⟩
    split <;> exact Nat.zero_le room
  | string s =>
    cases h
    exact ⟨by cases room <;> trivial, Nat.zero_le room, rfl⟩
  | table id => cases hTable
  | other type id => cases h

theorem popSource_rule : (popSource castOutside heap).Rule
    (fun room value _ result => value ≠ .nil → Pops heap room value result)
    (fun room cs _ result => (∀ c ∈ cs, c.2 ≠ .nil) → PopsAll heap room cs result) where
  leaf room value s obj s' hTable hLeaf hNil := by
    have hLeaf : (scalarize value).map (fun obj => (obj, s)) = .ok (obj, s') := hLeaf
    match hScalar : scalarize value with
    | .ok obj' =>
      rw [hScalar] at hLeaf
      cases hLeaf
      exact pops_scalar hNil hTable hScalar
    | .error err =>
      rw [hScalar] at hLeaf
      cases hLeaf
  refused room value s err hTable hLeaf hNil := by
    cases value with
    | other type id => cases room <;> exact fun hStorable => hStorable
    | table id => cases hTable
    | _ => cases hLeaf
  deep value s hTable hNil := by
    cases value with
    | table id => exact fun hStorable => hStorable
    | _ => cases hTable
  shut room value s err hTable hEnter hNil := by
    cases value with
    | table id =>
      intro hStorable
      have hInvalid : classifyTable castOutside (heap id) = .invalid := by
        simp only [popSource] at hEnter
        split at hEnter
        · assumption
        · cases hEnter
      exact classify_invalid_iff.mp hInvalid hStorable.1
    | _ => cases hTable
  node room value s kind s' result hTable hEnter hAll hNil := by
    cases value with
    | table id =>
      obtain ⟨hKind, hValid⟩ : classifyTable castOutside (heap id) = kind ∧ kind ≠ .invalid := by
        simp only [popSource] at hEnter
        split at hEnter
        · cases hEnter
        · rename_i hValid
          cases hEnter
          exact ⟨rfl, hValid⟩
      have hChildren : (popSource castOutside heap).children (.table id) =
          tableChildren kind (heap id) := by
        rw [← hKind]
        rfl
      rw [hChildren] at hAll
      have hAll := hAll (tableChildren_forall hKind hValid (· ≠ .nil)).2
      have hStorable : Storable heap (room + 1) (.table id) ↔
          ∀ c ∈ tableChildren kind (heap id), Storable heap room c.2 :=
        storable_table hKind hValid
      match result with
      | .ok (objs, t) =>
        refine ⟨hStorable.mpr hAll.1, ?_⟩
        cases kind with
        | array => exact stored_array (classify_array hKind) hAll.2
        | dict => exact stored_dict (classify_dict hKind) hAll.2
        | invalid => exact absurd rfl hValid
      | .error (err, objs, t) => exact fun hStored => hAll (hStorable.mp hStored)
    | _ => cases hTable
  nil room s _ := ⟨fun c hc => (List.not_mem_nil hc).elim, List.Forall₂.nil⟩
  halt room key value rest s err obj s' h hPresent := by
    have hHead := h (hPresent _ List.mem_cons_self)
    exact fun hStorable => hHead (hStorable _ List.mem_cons_self)
  next room key value rest s obj s' result h hRest hPresent := by
    obtain ⟨hNil, hPresent⟩ := List.forall_mem_cons.mp hPresent
    obtain ⟨hHead, hStored⟩ := h hNil
    have hTail := hRest hPresent
    match result with
    | .ok (objs, t) =>
      exact ⟨List.forall_mem_cons.mpr ⟨hHead, hTail.1⟩, .cons ⟨rfl, hNil, hStored⟩ hTail.2⟩
    | .error (err, objs, t) =>
      exact fun hStorable => hTail fun c hc => hStorable c (List.mem_cons_of_mem _ hc)

theorem luaPopObject_spec (castOutside : Double → Int64) (heap : Heap) {value : Value}
    (hNil : value ≠ .nil) :
    match luaPopObject castOutside heap value with
    | .ok obj => Storable heap kMarshalDepthCap value ∧ obj.nesting ≤ kMarshalDepthCap ∧
        obj.type ≠ .nil ∧ ∃ back, objectToLua obj = .ok back ∧ DeepEq heap value back
    | .error _ => ¬ Storable heap kMarshalDepthCap value := by
  have hRule : (popSource castOutside heap).Rule _ _ := popSource_rule
  have hPops := hRule.rebuild (popSource castOutside heap).cap value () hNil
  have hCap : 0 < kMarshalDepthCap := by decide
  rw [← Source.run_eq_rebuild hCap] at hPops
  rw [luaPopObject]
  match hRun : (popSource castOutside heap).run value () with
  | .error (err, obj, s) =>
    rw [hRun] at hPops
    exact hPops
  | .ok (obj, ()) =>
    rw [hRun] at hPops
    obtain ⟨hStorable, hNesting, hEqual⟩ := hPops
    refine ⟨hStorable, hNesting, ?_, built obj, objectToLua_eq hNesting, hEqual⟩
    intro hType
    refine built_ne_nil hNil hEqual ?_
    cases obj with
    | nil => rfl
    | _ => cases hType

end RoundTrip

end Mua.Lua
