import Baonix.Lib.Checked
import Baonix.Lib.LittleEndian
import Baonix.Lib.Window

/-!
# Reading and patching a flattened device tree

The walker of `fdt.rs`: it finds the value of a property by the path of its node and
its name, and `set_u64` overwrites a value of eight bytes in place.
-/

namespace Baonix.Host.Fdt

open Baonix.LittleEndian
open Window (window overwrite)
open Exec (roundUp le_roundUp)

def fdtBeginNode : ℕ := 1
def fdtEndNode : ℕ := 2
def fdtProp : ℕ := 3
def fdtNop : ℕ := 4
def fdtMagic : ℕ := 0xd00dfeed

/-- `b.get(first..last)`. -/
def get (b : List Byte) (first last : ℕ) : Option (List Byte) :=
  if first ≤ last ∧ last ≤ b.length then some (window b first (last - first)) else none

def be32 (b : List Byte) (off : ℕ) : Option ℕ :=
  (get b off (off + 4)).map fun bytes => ofBytes bytes.reverse

/-- Where the string at `first` ends: the closure `cstr`. -/
def cstr (b : List Byte) (first : ℕ) : Option ℕ :=
  if first ≤ b.length then ((b.drop first).findIdx? (· = 0)).map (· + first) else none

/-- A continuation byte between bounds. -/
def continues (low high byte : Byte) : Bool := low ≤ byte ∧ byte ≤ high

/-- The bounds of the second byte, and how many more follow it, by the first. -/
def utf8Lead (byte : Byte) : Option (Byte × Byte × ℕ) :=
  if 0xC2 ≤ byte ∧ byte ≤ 0xDF then some (0x80, 0xBF, 0)
  else if byte = 0xE0 then some (0xA0, 0xBF, 1)
  else if byte = 0xED then some (0x80, 0x9F, 1)
  else if 0xE1 ≤ byte ∧ byte ≤ 0xEF then some (0x80, 0xBF, 1)
  else if byte = 0xF0 then some (0x90, 0xBF, 2)
  else if 0xF1 ≤ byte ∧ byte ≤ 0xF3 then some (0x80, 0xBF, 2)
  else if byte = 0xF4 then some (0x80, 0x8F, 2)
  else none

/-- Well-formed UTF-8, with the bounds of the next byte and the number after it where a
character is not complete. -/
def utf8From : Option (Byte × Byte × ℕ) → List Byte → Bool
  | none, [] => true
  | some _, [] => false
  | none, byte :: rest =>
      if byte < 0x80 then utf8From none rest
      else match utf8Lead byte with
        | some bounds => utf8From (some bounds) rest
        | none => false
  | some (low, high, more), byte :: rest =>
      continues low high byte &&
        utf8From (if more = 0 then none else some (0x80, 0xBF, more - 1)) rest

/-- `core::str::from_utf8`. -/
def fromUtf8 (bytes : List Byte) : Option (List Byte) :=
  if utf8From none bytes then some bytes else none

/-! ## The walk -/

/-- What `prop_range` reads of the header, and the struct block. -/
structure Blocks where
  blob : List Byte
  offStruct : ℕ
  offStrings : ℕ
  structs : List Byte

def blocks (blob : List Byte) : Option Blocks := do
  let magic ← be32 blob 0
  if magic ≠ fdtMagic then none
  else do
    let offStruct ← be32 blob 8
    let offStrings ← be32 blob 12
    let sizeStruct ← be32 blob 36
    let structs ← get blob offStruct (offStruct + sizeStruct)
    pure ⟨blob, offStruct, offStrings, structs⟩

/-- How a turn of the loop ends. -/
inductive Turn
  | found (first last : ℕ)
  | next (i : ℕ) (stack : List (List Byte))
  | stop

/-- The path of a node: the names below the root, joined. -/
def pathOf (stack : List (List Byte)) : List Byte := 0x2F :: [(0x2F : Byte)].intercalate stack.tail

/-- The string at `first`, up to its end. -/
def stringAt (b : List Byte) (first : ℕ) : Option (List Byte) := do
  let last ← cstr b first
  fromUtf8 (window b first (last - first))

variable (b : Blocks) (path name : List Byte)

/-- The arm `FDT_BEGIN_NODE`. -/
def beginNode (i : ℕ) (stack : List (List Byte)) : Option Turn := do
  let last ← cstr b.structs i
  let node ← stringAt b.structs i
  pure (.next (roundUp (last + 1) 4) (stack ++ [node]))

/-- The arm `FDT_PROP`. -/
def prop (i : ℕ) (stack : List (List Byte)) : Option Turn := do
  let len ← be32 b.structs i
  let nameoff ← be32 b.structs (i + 4)
  let first := b.offStruct + (i + 8)
  let last := b.offStruct + (i + 8 + len)
  if last > b.blob.length then none
  else do
    let pname ← stringAt b.blob (b.offStrings + nameoff)
    if pname = name ∧ stack.length > 1 ∧ pathOf stack = path then pure (.found first last)
    else pure (.next (roundUp (i + 8 + len) 4) stack)

/-- One turn of the loop. -/
def turn (i : ℕ) (stack : List (List Byte)) : Option Turn :=
  if i + 4 ≤ b.structs.length then do
    let token ← be32 b.structs i
    if token = fdtBeginNode then beginNode b (i + 4) stack
    else if token = fdtEndNode then pure (.next (i + 4) stack.dropLast)
    else if token = fdtProp then prop b path name (i + 4) stack
    else if token = fdtNop then pure (.next (i + 4) stack)
    else pure .stop
  else pure .stop

theorem le_of_cstr {bytes : List Byte} {first last : ℕ} (hcstr : cstr bytes first = some last) :
    first ≤ last := by
  rw [cstr] at hcstr
  split at hcstr
  · obtain ⟨index, -, rfl⟩ := Option.map_eq_some_iff.mp hcstr
    exact Nat.le_add_left ..
  · cases hcstr

variable {b path name}

/-- The loop moves on. -/
theorem turn_advances {i next : ℕ} {stack nextStack : List (List Byte)}
    (hturn : turn b path name i stack = some (.next next nextStack)) :
    i < next ∧ i < b.structs.length := by
  rw [turn] at hturn
  split at hturn
  · refine ⟨?_, by omega⟩
    simp only [Option.bind_eq_bind, Option.bind_eq_some_iff] at hturn
    obtain ⟨token, -, hturn⟩ := hturn
    split at hturn
    · simp only [beginNode, Option.bind_eq_bind, Option.bind_eq_some_iff, Option.pure_def,
        Option.some.injEq, Turn.next.injEq] at hturn
      obtain ⟨last, hlast, node, -, rfl, -⟩ := hturn
      have hle := le_of_cstr hlast
      have hround := le_roundUp (last + 1) 4
      omega
    · split at hturn
      · cases hturn
        omega
      · split at hturn
        · simp only [prop, Option.bind_eq_bind, Option.bind_eq_some_iff] at hturn
          obtain ⟨len, -, nameoff, -, hturn⟩ := hturn
          split at hturn
          · cases hturn
          · simp only [Option.bind_eq_some_iff] at hturn
            obtain ⟨pname, -, hturn⟩ := hturn
            split at hturn
            · cases hturn
            · cases hturn
              have hround := le_roundUp (i + 4 + 8 + len) 4
              omega
        · split at hturn
          · cases hturn
            omega
          · cases hturn
  · cases hturn

variable (b path name)

/-- The loop of `prop_range`. -/
def walk (i : ℕ) (stack : List (List Byte)) : Option (ℕ × ℕ) :=
  match _hturn : turn b path name i stack with
  | none => none
  | some .stop => none
  | some (.found first last) => some (first, last)
  | some (.next next nextStack) => walk next nextStack
termination_by b.structs.length - i
decreasing_by
  have hadvances := turn_advances _hturn
  omega

/-- `prop_range`. -/
def propRange (blob path name : List Byte) : Option (ℕ × ℕ) :=
  (blocks blob).bind fun b => walk b path name 0 []

inductive Error
  | missing (path name : List Byte)
  | width (path name : List Byte) (length : ℕ)

/-- `to_be_bytes`. -/
def be64 (value : ℕ) : List Byte := (toBytes 8 value).reverse

/-- `set_u64`. -/
def setU64 (blob path name : List Byte) (value : ℕ) : Except Error (List Byte) :=
  match propRange blob path name with
  | none => .error (.missing path name)
  | some (first, last) =>
      if last - first ≠ 8 then .error (.width path name (last - first))
      else .ok (overwrite blob first (be64 value))

end Baonix.Host.Fdt
