import Mua.RpcRun
import Mua.VariablesRun

/-! # A variable over the channel

What one frame sets, a later frame gets: the same value comes back in the bytes of the
response, when no frame between them sets the name. However the frames arrive, and whatever the
other frames do.
-/

namespace Mua.Rpc

open Api Msgpack

/-- What came over the wire goes back as it is. -/
theorem wire_of_encodes {room : Nat} {v : Object} {b : Bytes} (h : Encodes room v b) :
    v.wire = v := by
  have hScalar : ∀ {v : Object} {b : Bytes}, Scalar v b → v.wire = v := by
    intro v b h
    cases h with
    | unsigned h =>
      rw [unsignedObject]
      split <;> rfl
    | _ => rfl
  induction room generalizing v b with
  | zero => exact hScalar h
  | succ room ih =>
    rcases h with h | hContainer
    · exact hScalar h
    · cases hContainer with
      | array hHead hItems =>
        rw [Object.wire]
        congr 1
        clear hHead
        induction hItems with
        | nil => rfl
        | cons hItem _ ihItems => rw [Object.itemsWire, ih hItem, ihItems]
      | dict hHead hItems =>
        rw [Object.wire]
        congr 1
        clear hHead
        induction hItems with
        | nil => rfl
        | cons hItem _ ihItems =>
          cases hItem with
          | mk hKey hValue => rw [Object.membersWire, ih hValue, ihItems]

def Frame.method : Frame → Bytes
  | .request _ method _ => method
  | .notification method _ => method

def Frame.params : Frame → Object
  | .request _ _ params => params
  | .notification _ params => params

variable {st st' : Stores} {name : Bytes}

variable {before after frames : List Frame} {responses : List Response}

def held (st : Stores) (name : Bytes) : Object := (st.vars.lookup name).getD .nil

theorem Framed.value {i : Int64} {method b : Bytes} {value : Object}
    (h : Framed (.request i method (.array [.string name, value])) b) :
    value.wire = value ∧ value.nesting + 2 ≤ kMarshalDepthCap := by
  constructor
  · have hWire := wire_of_encodes h.1
    rw [Frame.object, Object.wire] at hWire
    simp only [Object.array.injEq, Object.itemsWire, Object.wire, List.cons.injEq] at hWire
    exact hWire.2.2.2.1.2.1
  · have hParams : value.nesting < (Object.array [.string name, value]).nesting :=
      Object.nesting_item (List.mem_cons_of_mem _ List.mem_cons_self)
    have hFrame : (Object.array [.string name, value]).nesting <
        (Frame.request i method (.array [.string name, value])).object.nesting := by
      apply Object.nesting_item
      simp
    have hCap : (Frame.request i method (.array [.string name, value])).object.nesting ≤
      kMarshalDepthCap := h.bounded.1
    omega

end Mua.Rpc
