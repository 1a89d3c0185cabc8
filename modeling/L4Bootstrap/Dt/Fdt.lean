import L4Bootstrap.Support
import Mathlib.Data.UInt

/-!
# Nodes and properties of a device tree

The accessors of `Dt::Node` in `dt.h` and `dt.cc`. The tree itself is only seen
through libfdt, whose answers for one tree are the fields of `Fdt`. A node is its
offset, a negative number stands for no node.
-/

namespace L4Bootstrap.Dt

set_option autoImplicit false

/-- `walk` holds the offsets and depths that successive calls of `fdt_next_node`
report. The length of a property value is an `int`. -/
structure Fdt where
  walk : List (Int × Nat)
  parentOffset : Int → Int
  getprop : Int → String → Option (List UInt8)
  addressCells : Int → Int
  sizeCells : Int → Int
  pathOffset : String → Int
  subnodes : Int → List Int
  nodeOffsetByPhandle : Nat → Int
  nodeOffsetByPropValue : Int → String → List UInt8 → Int
  nodeCheckCompatible : Int → String → Int
  shortProps : ∀ node name value, getprop node name = some value → value.length < 2 ^ 31

/-- `fdt32_to_cpu`. -/
def fdt32ToCpu (a b c d : UInt8) : Nat :=
  a.toNat * 2 ^ 24 + b.toNat * 2 ^ 16 + c.toNat * 2 ^ 8 + d.toNat

/-- The whole cells of a property value. -/
def cells : List UInt8 → List Nat
  | a :: b :: c :: d :: rest => fdt32ToCpu a b c d :: cells rest
  | _ => []

/-- `read_value<T>` for a type of so many bits. -/
def readValue (bits : Nat) (cells : List Nat) : Nat :=
  cells.foldl (fun val cell => (val * 2 ^ 32 + cell) % 2 ^ 64) 0 % 2 ^ bits

namespace Fdt

variable (fdt : Fdt) (node : Int)

/-- `get_prop<fdt32_t>`. -/
def getProp (name : String) : Option (List Nat) := (fdt.getprop node name).map cells

def getPropU32 (name : String) : Option Nat := (fdt.getProp node name).map (readValue 32)

/-- The value up to its first NUL; one without a NUL is no valid string. -/
def getPropStr (name : String) : Option (List Char) :=
  match fdt.getprop node name with
  | none => none
  | some value =>
      if 0 ∈ value then some ((value.takeWhile (· ≠ 0)).map fun c => Char.ofNat c.toNat) else none

def checkDeviceType (deviceType : String) : Bool :=
  fdt.getPropStr node "device_type" = some deviceType.toList

def checkCompatible (compatible : String) : Bool := fdt.nodeCheckCompatible node compatible = 0

def isEnabled : Bool :=
  match fdt.getPropStr node "status" with
  | none => true
  | some status => status = "ok".toList || status = "okay".toList

end Fdt

theorem fdt32_to_cpu_lt (a b c d : UInt8) : fdt32ToCpu a b c d < 2 ^ 32 := by
  have := a.toNat_lt
  have := b.toNat_lt
  have := c.toNat_lt
  have := d.toNat_lt
  unfold fdt32ToCpu
  omega

theorem length_cells (value : List UInt8) : (cells value).length = value.length / 4 := by
  fun_induction cells value with
  | case1 a b c d rest ih =>
      simp only [List.length_cons, ih]
      omega
  | case2 value short =>
      have few : value.length < 4 := by
        rcases value with _ | ⟨a, _ | ⟨b, _ | ⟨c, _ | ⟨d, rest⟩⟩⟩⟩
        all_goals first
          | exact absurd rfl (short _ _ _ _ _)
          | simp
      rw [List.length_nil, Nat.div_eq_of_lt few]

theorem cells_lt {value : List UInt8} {cell : Nat} (member : cell ∈ cells value) :
    cell < 2 ^ 32 := by
  fun_induction cells value with
  | case1 a b c d rest ih =>
      rcases List.mem_cons.mp member with rfl | inRest
      · exact fdt32_to_cpu_lt a b c d
      · exact ih inRest
  | case2 value short => cases member

theorem read_value_lt (bits : Nat) (cells : List Nat) : readValue bits cells < 2 ^ bits :=
  Nat.mod_lt _ (Nat.two_pow_pos bits)

theorem get_prop_length {fdt : Fdt} {node : Int} {name : String} {list : List Nat}
    (isProp : fdt.getProp node name = some list) : list.length < 2 ^ 29 := by
  obtain ⟨value, isValue, rfl⟩ := Option.map_eq_some_iff.mp isProp
  have short := fdt.shortProps node name value isValue
  rw [length_cells]
  omega

theorem get_prop_u32_lt {fdt : Fdt} {node : Int} {name : String} {val : Nat}
    (isVal : fdt.getPropU32 node name = some val) : val < 2 ^ 32 := by
  obtain ⟨list, _, rfl⟩ := Option.map_eq_some_iff.mp isVal
  exact read_value_lt 32 list

end L4Bootstrap.Dt
