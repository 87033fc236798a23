import Baonix.Host.FdtChecked
import Baonix.Host.Images

/-!
# The properties of a device tree

A struct block is the flattening of a tree.  What the walker finds is stated over the
tree: the property of a node by the names on the way to it, wherever padding, NOPs,
unit addresses and equal names at other depths lead the walk.
-/

namespace Baonix.Host.Fdt

open Baonix.LittleEndian
open Window
open Exec (le_roundUp)

theorem encode_cons (item : Item) (items : List Item) :
    encode (item :: items) = item.encode ++ encode items := List.flatMap_cons

theorem encode_append (items more : List Item) :
    encode (items ++ more) = encode items ++ encode more := List.flatMap_append

/-- What stands between the begin and the end of a node. -/
inductive Entries
  | nil
  | nop (rest : Entries)
  | prop (nameoff : ℕ) (value : List Byte) (rest : Entries)
  | node (name : List Byte) (inner rest : Entries)

namespace Entries

def items : Entries → List Item
  | nil => []
  | nop rest => .nop :: rest.items
  | prop nameoff value rest => .prop nameoff value :: rest.items
  | node name inner rest => .beginNode name :: (inner.items ++ .endNode :: rest.items)

def nops : ℕ → Entries → Entries
  | 0, rest => rest
  | count + 1, rest => nop (nops count rest)

/-- The names of the nodes directly inside. -/
def nodeNames : Entries → List (List Byte)
  | nil => []
  | nop rest => rest.nodeNames
  | prop _ _ rest => rest.nodeNames
  | node name _ rest => name :: rest.nodeNames

/-- The names of the properties directly inside. -/
def propNames (names : ℕ → List Byte) : Entries → List (List Byte)
  | nil => []
  | nop rest => rest.propNames names
  | prop nameoff _ rest => names nameoff :: rest.propNames names
  | node _ _ rest => rest.propNames names

/-- No name is given twice in one node, and no name of a node has a slash. -/
def Distinct (names : ℕ → List Byte) : Entries → Prop
  | nil => True
  | nop rest => rest.Distinct names
  | prop nameoff _ rest => names nameoff ∉ rest.propNames names ∧ rest.Distinct names
  | node name inner rest => name ∉ rest.nodeNames ∧ 0x2F ∉ name ∧
      inner.Distinct names ∧ rest.Distinct names

end Entries

/-- The node the names lead to has the property, with its value at a position of the
block. -/
inductive HasProp (names : ℕ → List Byte) :
    Entries → List (List Byte) → List Byte → List Byte → ℕ → Prop
  | here (nameoff : ℕ) (value : List Byte) (rest : Entries) :
      HasProp names (.prop nameoff value rest) [] (names nameoff) value 12
  | behindProp (nameoff : ℕ) (other : List Byte) {rest : Entries} {path : List (List Byte)}
      {name value : List Byte} {pos : ℕ} (hrest : HasProp names rest path name value pos) :
      HasProp names (.prop nameoff other rest) path name value
        ((Item.prop nameoff other).encode.length + pos)
  | behindNop {rest : Entries} {path : List (List Byte)} {name value : List Byte} {pos : ℕ}
      (hrest : HasProp names rest path name value pos) :
      HasProp names (.nop rest) path name value (4 + pos)
  | inside (node : List Byte) {inner : Entries} (rest : Entries) {path : List (List Byte)}
      {name value : List Byte} {pos : ℕ} (hinner : HasProp names inner path name value pos) :
      HasProp names (.node node inner rest) (node :: path) name value
        ((Item.beginNode node).encode.length + pos)
  | behindNode (node : List Byte) (inner : Entries) {rest : Entries} {path : List (List Byte)}
      {name value : List Byte} {pos : ℕ} (hrest : HasProp names rest path name value pos) :
      HasProp names (.node node inner rest) path name value
        ((Item.beginNode node).encode.length + ((encode inner.items).length + (4 + pos)))

section Tree

variable {names : ℕ → List Byte} {path : List (List Byte)} {name value : List Byte} {pos : ℕ}

/-! ## Names -/

theorem HasProp.mem_names {e : Entries} (hprop : HasProp names e path name value pos) :
    (path = [] → name ∈ e.propNames names) ∧ ∀ node below, path = node :: below → node ∈ e.nodeNames := by
  induction hprop with
  | here nameoff value rest => exact ⟨fun _ => List.mem_cons_self .., nofun⟩
  | behindProp nameoff other _ ih => exact ⟨fun hpath => List.mem_cons_of_mem _ (ih.1 hpath), ih.2⟩
  | behindNop _ ih => exact ih
  | inside node rest _ _ =>
      refine ⟨nofun, fun first below hpath => ?_⟩
      cases hpath
      exact List.mem_cons_self ..
  | behindNode node inner _ ih =>
      exact ⟨ih.1, fun first below hpath => List.mem_cons_of_mem _ (ih.2 first below hpath)⟩

theorem HasProp.slash_free {e : Entries} (hprop : HasProp names e path name value pos)
    (hdistinct : e.Distinct names) : ∀ node ∈ path, 0x2F ∉ node := by
  induction hprop with
  | here nameoff value rest => exact fun node hnode => absurd hnode List.not_mem_nil
  | behindProp nameoff other _ ih => exact ih hdistinct.2
  | behindNop _ ih => exact ih hdistinct
  | inside node rest _ ih =>
      intro other hother
      rcases List.mem_cons.mp hother with rfl | hbelow
      · exact hdistinct.2.1
      · exact ih hdistinct.2.2.1 other hbelow
  | behindNode node inner _ ih => exact ih hdistinct.2.2.2

/-- **A node has a property once.** -/
theorem HasProp.unique {e : Entries} (hprop : HasProp names e path name value pos)
    (hdistinct : e.Distinct names) {value' : List Byte} {pos' : ℕ}
    (hprop' : HasProp names e path name value' pos') : value = value' ∧ pos = pos' := by
  induction hprop generalizing pos' with
  | here nameoff value rest =>
      cases hprop' with
      | here => exact ⟨rfl, rfl⟩
      | behindProp _ _ hrest => exact absurd (hrest.mem_names.1 rfl) hdistinct.1
  | behindProp nameoff other hrest ih =>
      cases hprop' with
      | here => exact absurd (hrest.mem_names.1 rfl) hdistinct.1
      | behindProp _ _ hrest' =>
          obtain ⟨hvalue, hpos⟩ := ih hdistinct.2 hrest'
          exact ⟨hvalue, by rw [hpos]⟩
  | behindNop hrest ih =>
      cases hprop' with
      | behindNop hrest' =>
          obtain ⟨hvalue, hpos⟩ := ih hdistinct hrest'
          exact ⟨hvalue, by rw [hpos]⟩
  | inside node rest hinner ih =>
      cases hprop' with
      | inside _ _ hinner' =>
          obtain ⟨hvalue, hpos⟩ := ih hdistinct.2.2.1 hinner'
          exact ⟨hvalue, by rw [hpos]⟩
      | behindNode _ _ hrest => exact absurd (hrest.mem_names.2 _ _ rfl) hdistinct.1
  | behindNode node inner hrest ih =>
      cases hprop' with
      | inside => exact absurd (hrest.mem_names.2 _ _ rfl) hdistinct.1
      | behindNode _ _ hrest' =>
          obtain ⟨hvalue, hpos⟩ := ih hdistinct.2.2.2 hrest'
          exact ⟨hvalue, by rw [hpos]⟩

/-- The value stands in the block where the relation says. -/
theorem HasProp.split {e : Entries} (hprop : HasProp names e path name value pos) :
    ∃ before after, encode e.items = before ++ (value ++ after) ∧ before.length = pos := by
  -- bytes in front of a block
  have hbehind (front : List Byte) {block : List Byte} {pos : ℕ} {value : List Byte}
      (hsplit : ∃ before after, block = before ++ (value ++ after) ∧ before.length = pos) :
      ∃ before after, front ++ block = before ++ (value ++ after) ∧
        before.length = front.length + pos := by
    obtain ⟨before, after, hblock, hlength⟩ := hsplit
    refine ⟨front ++ before, after, by rw [hblock, List.append_assoc], ?_⟩
    rw [List.length_append, hlength]
  induction hprop with
  | here nameoff value rest =>
      refine ⟨cell fdtProp ++ (cell value.length ++ cell nameoff),
        List.replicate (Exec.roundUp value.length 4 - value.length) 0 ++ encode rest.items, ?_, ?_⟩
      · simp only [Entries.items, encode_cons, Item.encode, padded, List.append_assoc]
      · simp only [List.length_append, length_cell]
  | behindProp nameoff other _ ih => exact hbehind (Item.prop nameoff other).encode ih
  | behindNop _ ih =>
      have hsplit := hbehind Item.nop.encode ih
      rwa [Item.encode, length_cell] at hsplit
  | @inside node inner rest _ _ _ _ _ ih =>
      obtain ⟨before, after, hblock, hlength⟩ := ih
      refine hbehind (Item.beginNode node).encode
        ⟨before, after ++ encode (.endNode :: rest.items), ?_, hlength⟩
      change encode (inner.items ++ .endNode :: rest.items) = _
      rw [encode_append, hblock, List.append_assoc, List.append_assoc]
  | behindNode node inner _ ih =>
      have hrest := hbehind (encode inner.items) (hbehind Item.endNode.encode ih)
      have hsplit := hbehind (Item.beginNode node).encode hrest
      have hend : Item.endNode.encode.length = 4 := length_cell _
      rw [hend] at hsplit
      rwa [Entries.items, encode_cons, encode_append, encode_cons]

theorem HasProp.ends {e : Entries} (hprop : HasProp names e path name value pos) :
    pos + value.length ≤ (encode e.items).length := by
  obtain ⟨before, after, hblock, rfl⟩ := hprop.split
  rw [hblock, List.length_append, List.length_append]
  omega

/-- The values of two properties are apart. -/
theorem HasProp.apart {e : Entries} (hprop : HasProp names e path name value pos)
    {path' : List (List Byte)} {name' value' : List Byte} {pos' : ℕ}
    (hprop' : HasProp names e path' name' value' pos') (hkeys : ¬ (path' = path ∧ name' = name)) :
    pos + value.length ≤ pos' ∨ pos' + value'.length ≤ pos := by
  -- a property reaches behind its value
  have hreaches (nameoff : ℕ) (value : List Byte) :
      12 + value.length ≤ (Item.prop nameoff value).encode.length := by
    have hround := le_roundUp value.length 4
    simp only [Item.encode, List.length_append, length_cell, length_padded]
    omega
  induction hprop generalizing path' pos' with
  | here nameoff value rest =>
      have hend := hreaches nameoff value
      cases hprop' with
      | here => exact absurd ⟨rfl, rfl⟩ hkeys
      | behindProp => exact .inl (by omega)
  | behindProp nameoff other hrest ih =>
      have hend := hreaches nameoff other
      cases hprop' with
      | here => exact .inr (by omega)
      | behindProp _ _ hrest' =>
          have hapart := ih hrest' hkeys
          omega
  | behindNop hrest ih =>
      cases hprop' with
      | behindNop hrest' =>
          have hapart := ih hrest' hkeys
          omega
  | inside node rest hinner ih =>
      cases hprop' with
      | inside _ _ hinner' =>
          have hapart := ih hinner' fun hsame => hkeys ⟨congrArg (node :: ·) hsame.1, hsame.2⟩
          omega
      | behindNode =>
          have hends := hinner.ends
          exact .inl (by omega)
  | behindNode node inner hrest ih =>
      cases hprop' with
      | inside _ _ hinner' =>
          have hends := hinner'.ends
          exact .inr (by omega)
      | behindNode _ _ hrest' =>
          have hapart := ih hrest' hkeys
          omega

/-! ## Looking up -/

/-- **The walk over the items of a node**: it finds a property on the way, or comes out
behind the node with the stack it came with. -/
theorem lookup_entries (target name : List Byte) (e : Entries) (rest : List Item) (pos : ℕ)
    (stack : List (List Byte)) :
    (∃ below value p, HasProp names e below name value p ∧
        ((stack ++ below).length > 1 ∧ pathOf (stack ++ below) = target) ∧
        lookup names target name (e.items ++ rest) pos stack = some (pos + p, value.length)) ∨
      (∀ below value p, HasProp names e below name value p →
        ¬ ((stack ++ below).length > 1 ∧ pathOf (stack ++ below) = target)) ∧
      lookup names target name (e.items ++ rest) pos stack =
        lookup names target name rest (pos + (encode e.items).length) stack := by
  induction e generalizing rest pos stack with
  | nil =>
      right
      refine ⟨fun below value p hprop => ?_, rfl⟩
      cases hprop
  | nop tail ih =>
      rw [Entries.items, List.cons_append, lookup, encode_cons, List.length_append, Item.encode,
        length_cell, ← Nat.add_assoc]
      rcases ih rest (pos + 4) stack with ⟨below, value, p, hprop, hmatch, hfound⟩ | ⟨hnone, hout⟩
      · exact .inl ⟨below, value, 4 + p, .behindNop hprop, hmatch, by rw [hfound, Nat.add_assoc]⟩
      · refine .inr ⟨fun below value p hprop => ?_, hout⟩
        cases hprop with
        | behindNop hrest => exact hnone _ _ _ hrest
  | prop nameoff value tail ih =>
      rw [Entries.items, List.cons_append, lookup, encode_cons, List.length_append, ← Nat.add_assoc]
      by_cases hmatch : names nameoff = name ∧ stack.length > 1 ∧ pathOf stack = target
      · refine .inl ⟨[], value, 12, hmatch.1 ▸ .here nameoff value tail, ?_, if_pos hmatch⟩
        rw [List.append_nil]
        exact hmatch.2
      · rw [if_neg hmatch]
        rcases ih rest (pos + (Item.prop nameoff value).encode.length) stack with
          ⟨below, other, p, hprop, hmatch', hfound⟩ | ⟨hnone, hout⟩
        · exact .inl ⟨below, other, _, .behindProp nameoff value hprop, hmatch',
            by rw [hfound, Nat.add_assoc]⟩
        · refine .inr ⟨fun below other p hprop => ?_, hout⟩
          cases hprop with
          | here =>
              rw [List.append_nil]
              exact fun hfits => hmatch ⟨rfl, hfits⟩
          | behindProp _ _ hrest => exact hnone _ _ _ hrest
  | node node inner tail ihInner ihTail =>
      rw [Entries.items, List.cons_append, lookup, List.append_assoc, List.cons_append, encode_cons,
        encode_append, encode_cons, List.length_append, List.length_append, List.length_append]
      rcases ihInner (.endNode :: (tail.items ++ rest))
          (pos + (Item.beginNode node).encode.length) (stack ++ [node]) with
        ⟨below, value, p, hprop, hmatch, hfound⟩ | ⟨hnoneInner, hout⟩
      · rw [List.append_assoc, List.singleton_append] at hmatch
        exact .inl ⟨node :: below, value, _, .inside node tail hprop, hmatch,
          by rw [hfound, Nat.add_assoc]⟩
      · rw [hout, lookup, List.dropLast_concat, Item.encode, Item.encode, length_cell]
        rcases ihTail rest (pos + (cell fdtBeginNode ++ padded (node ++ [0])).length +
            (encode inner.items).length + 4) stack with
          ⟨below, value, p, hprop, hmatch, hfound⟩ | ⟨hnone, hbehind⟩
        · refine .inl ⟨below, value, _, .behindNode node inner hprop, hmatch, ?_⟩
          rw [hfound, Item.encode]
          congr 2
          omega
        · refine .inr ⟨fun below value p hprop => ?_, ?_⟩
          · cases hprop with
            | inside _ _ hinner =>
                have hother := hnoneInner _ _ _ hinner
                rwa [List.append_assoc, List.singleton_append] at hother
            | behindNode _ _ hrest => exact hnone _ _ _ hrest
          · rw [hbehind]
            congr 1
            omega

end Tree

/-! ## A device tree -/

/-- A tree with its strings, and where its blocks are in a blob. -/
structure DeviceTree where
  root : Entries
  /-- The NOPs before and behind the root. -/
  leading : ℕ
  trailing : ℕ
  names : ℕ → List Byte
  offStruct : ℕ
  offStrings : ℕ
  sizeStrings : ℕ

namespace DeviceTree

/-- The struct block: the root has an empty name. -/
def block (dt : DeviceTree) : Entries :=
  .nops dt.leading (.node [] dt.root (.nops dt.trailing .nil))

def tree (dt : DeviceTree) : Tree :=
  ⟨dt.block.items, dt.names, dt.offStruct, dt.offStrings, dt.sizeStrings⟩

/-- The node below the root that the names lead to has the property. -/
def Has (dt : DeviceTree) (path : List (List Byte)) (name value : List Byte) (pos : ℕ) : Prop :=
  HasProp dt.names dt.block ([] :: path) name value pos

/-- The path of a node below the root. -/
def pathTo (path : List (List Byte)) : List Byte := pathOf ([] :: path)

/-- The blob is the tree, flattened. -/
structure Flattens (dt : DeviceTree) (blob : List Byte) : Prop where
  wellFormed : WellFormed blob dt.tree
  distinct : dt.root.Distinct dt.names

end DeviceTree

section Nops

variable {names : ℕ → List Byte} {path : List (List Byte)} {name value : List Byte} {pos : ℕ}

theorem HasProp.of_nops {count : ℕ} {e : Entries}
    (hprop : HasProp names (.nops count e) path name value pos) :
    ∃ pos, HasProp names e path name value pos := by
  induction count generalizing pos with
  | zero => exact ⟨pos, hprop⟩
  | succ count ih =>
      cases hprop with
      | behindNop hrest => exact ih hrest

theorem Entries.distinct_nops (count : ℕ) (e : Entries) :
    (Entries.nops count e).Distinct names ↔ e.Distinct names := by
  induction count with
  | zero => exact Iff.rfl
  | succ count ih => exact ih

theorem Entries.nodeNames_nops (count : ℕ) (e : Entries) :
    (Entries.nops count e).nodeNames = e.nodeNames := by
  induction count with
  | zero => rfl
  | succ count ih => exact ih

end Nops

/-- Different paths are written differently. -/
theorem pathTo_injective {path other : List (List Byte)} (hpath : path ≠ []) (hother : other ≠ [])
    (hpathSlash : ∀ node ∈ path, 0x2F ∉ node) (hotherSlash : ∀ node ∈ other, 0x2F ∉ node)
    (heq : DeviceTree.pathTo path = DeviceTree.pathTo other) : path = other := by
  have hjoined : [(0x2F : Byte)].intercalate path = [(0x2F : Byte)].intercalate other :=
    (List.cons.inj heq).2
  calc path = ([(0x2F : Byte)].intercalate path).splitOn 0x2F :=
        (List.splitOn_intercalate _ hpathSlash hpath).symm
    _ = ([(0x2F : Byte)].intercalate other).splitOn 0x2F := by rw [hjoined]
    _ = other := List.splitOn_intercalate _ hotherSlash hother

namespace DeviceTree

variable {dt : DeviceTree} {blob : List Byte}

theorem distinct_block (hdistinct : dt.root.Distinct dt.names) : dt.block.Distinct dt.names := by
  rw [block, Entries.distinct_nops]
  refine ⟨?_, List.not_mem_nil, hdistinct, (Entries.distinct_nops ..).mpr trivial⟩
  rw [Entries.nodeNames_nops]
  exact List.not_mem_nil

/-- Every property belongs to the root or to a node below it. -/
theorem exists_path {path : List (List Byte)} {name value : List Byte} {pos : ℕ}
    (hprop : HasProp dt.names dt.block path name value pos) : ∃ below, path = [] :: below := by
  obtain ⟨pos, hroot⟩ := hprop.of_nops
  cases hroot with
  | inside _ _ hinner => exact ⟨_, rfl⟩
  | behindNode _ _ hrest =>
      obtain ⟨pos, hnil⟩ := hrest.of_nops
      cases hnil

/-- **The walk finds the property of a node**, if it has it. -/
theorem lookup_eq (hdistinct : dt.root.Distinct dt.names) {path : List (List Byte)}
    (hpath : path ≠ []) (hslash : ∀ node ∈ path, 0x2F ∉ node) (name : List Byte) :
    (∀ value pos, dt.Has path name value pos →
      dt.tree.lookup (pathTo path) name = some (pos, value.length)) ∧
    ((∀ value pos, ¬ dt.Has path name value pos) → dt.tree.lookup (pathTo path) name = none) := by
  have hblock := distinct_block hdistinct
  have hitems : dt.tree.lookup (pathTo path) name =
      lookup dt.names (pathTo path) name (dt.block.items ++ []) 0 [] := by
    rw [Tree.lookup, List.append_nil]
    rfl
  rw [hitems]
  have hlong : 1 < (([] : List Byte) :: path).length := by
    have hpos := List.length_pos_iff.mpr hpath
    rw [List.length_cons]
    omega
  rcases @lookup_entries dt.names (pathTo path) name dt.block [] 0 [] with
    ⟨found, value, pos, hprop, ⟨hlength, hmatch⟩, hfound⟩ | ⟨hnone, hout⟩
  · -- what was found is the property of the node asked for
    rw [List.nil_append] at hlength hmatch
    obtain ⟨below, rfl⟩ := exists_path hprop
    have hbelow : below ≠ [] := by
      rintro rfl
      exact absurd hlength (lt_irrefl 1)
    have hslashBelow (node : List Byte) (hnode : node ∈ below) : 0x2F ∉ node :=
      hprop.slash_free hblock node (List.mem_cons_of_mem _ hnode)
    obtain rfl := pathTo_injective hbelow hpath hslashBelow hslash hmatch
    rw [hfound, Nat.zero_add]
    refine ⟨fun value' pos' hhas => ?_, fun hnot => absurd hprop (hnot value pos)⟩
    obtain ⟨rfl, rfl⟩ := hprop.unique hblock hhas
    rfl
  · rw [hout]
    refine ⟨fun value pos hhas => ?_, fun _ => rfl⟩
    exact absurd ⟨hlong, rfl⟩ (hnone _ _ _ hhas)

theorem Flattens.propRange_eq (hflat : dt.Flattens blob) {path : List (List Byte)}
    (hpath : path ≠ []) (hslash : ∀ node ∈ path, 0x2F ∉ node) {name value : List Byte} {pos : ℕ}
    (hhas : dt.Has path name value pos) :
    propRange blob (pathTo path) name =
      some (dt.offStruct + pos, dt.offStruct + (pos + value.length)) := by
  rw [hflat.wellFormed.propRange_eq,
    (lookup_eq hflat.distinct hpath hslash name).1 value pos hhas]
  rfl

theorem Flattens.propRange_eq_none (hflat : dt.Flattens blob) {path : List (List Byte)}
    (hpath : path ≠ []) (hslash : ∀ node ∈ path, 0x2F ∉ node) {name : List Byte}
    (hnot : ∀ value pos, ¬ dt.Has path name value pos) :
    propRange blob (pathTo path) name = none := by
  rw [hflat.wellFormed.propRange_eq, (lookup_eq hflat.distinct hpath hslash name).2 hnot]
  rfl

/-- The range found is where the value is. -/
theorem Flattens.window_eq (hflat : dt.Flattens blob) {path : List (List Byte)}
    {name value : List Byte} {pos : ℕ} (hhas : dt.Has path name value pos) :
    window blob (dt.offStruct + pos) value.length = value := by
  obtain ⟨before, after, hblock, rfl⟩ := hhas.split
  have hstructs := hflat.wellFormed.structs
  change window blob dt.offStruct dt.tree.sizeStruct = encode dt.block.items ++ _ at hstructs
  have hinside : before.length + value.length ≤ dt.tree.sizeStruct := by
    change _ ≤ (encode dt.block.items).length + 4
    rw [hblock, List.length_append, List.length_append]
    omega
  have hwindow : window (window blob dt.offStruct dt.tree.sizeStruct) before.length value.length =
      window blob (dt.offStruct + before.length) value.length := by
    apply List.ext_getElem?
    intro index
    rw [getElem?_window, getElem?_window, getElem?_window]
    split
    · rw [if_pos (by omega), Nat.add_assoc]
    · rfl
  rw [← hwindow, hstructs, hblock, List.append_assoc, List.append_assoc, window_append]

end DeviceTree

/-! ## Patching -/

/-- The function `prop`: the value of a property, if present. -/
def propValue (blob path name : List Byte) : Option (List Byte) :=
  (propRange blob path name).map fun range => window blob range.1 (range.2 - range.1)

/-- The blob became the patched one: eight of its bytes are the value, the others are as
they were. -/
structure PatchedAt (blob patched : List Byte) (first value : ℕ) : Prop where
  length : patched.length = blob.length
  value : window patched first 8 = be64 value
  rest : ∀ index, ¬ (first ≤ index ∧ index < first + 8) → patched[index]? = blob[index]?

theorem patchedAt_overwrite {blob : List Byte} {first value : ℕ} (hfits : first + 8 ≤ blob.length) :
    PatchedAt blob (overwrite blob first (be64 value)) first value := by
  have hlength := length_be64 value
  have hinside : first + (be64 value).length ≤ blob.length := by omega
  refine ⟨length_overwrite hinside, ?_, fun index hindex => ?_⟩
  · rw [← hlength, window_overwrite_self hinside]
  · rw [getElem?_overwrite hinside, if_neg (by omega)]

/-- What is read of a blob in which the same properties are in the same places. -/
theorem WellFormed.propValue_eq {blob : List Byte} {tree : Tree} (hwf : WellFormed blob tree)
    (path name : List Byte) :
    propValue blob path name = (tree.lookup path name).map
      fun found => window blob (tree.offStruct + found.1) found.2 := by
  rw [propValue, hwf.propRange_eq, Option.map_map]
  congr 1
  funext found
  change window blob _ (tree.offStruct + (found.1 + found.2) - (tree.offStruct + found.1)) = _
  rw [← Nat.add_assoc, Nat.add_sub_cancel_left]

/-- **Setting a value of eight bytes** changes what is read of its property, and of no
other. -/
theorem WellFormed.setU64_reads {blob path name : List Byte} {tree : Tree}
    (hwf : WellFormed blob tree) {p : ℕ} (hfound : tree.lookup path name = some (p, 8))
    (value : ℕ) :
    ∃ patched, setU64 blob path name value = .ok patched ∧
      PatchedAt blob patched (tree.offStruct + p) value ∧
      propValue patched path name = some (be64 value) ∧
      ∀ path' name', ¬ (path' = path ∧ name' = name) →
        propValue patched path' name' = propValue blob path' name' := by
  have hlength := length_be64 value
  have hvalue : tree.lookup path name = some (p, (be64 value).length) := by rw [hlength, hfound]
  obtain ⟨hfits, items, hpatched, hlookup⟩ := hwf.overwrite hvalue
  rw [hlength] at hfits
  have hset : PatchedAt blob _ (tree.offStruct + p) value := patchedAt_overwrite hfits
  refine ⟨_, hwf.setU64_eq hfound value, hset, ?_, fun path' name' hkeys => ?_⟩
  · rw [hpatched.propValue_eq, hlookup, hfound]
    exact congrArg some hset.value
  · rw [hpatched.propValue_eq, hwf.propValue_eq, hlookup]
    cases hother : tree.lookup path' name' with
    | none => rfl
    | some found =>
        have hapart := lookup_apart (fun hsame => hkeys ⟨hsame.1.symm, hsame.2.symm⟩) hfound hother
        exact congrArg some (window_overwrite_of_apart (by rw [hlength]; exact hfits) (by
          rw [hlength]
          dsimp only
          omega))

namespace DeviceTree

variable {dt : DeviceTree} {blob : List Byte} {path : List (List Byte)} {name value : List Byte}
  {pos : ℕ}

theorem Has.slash_free (hhas : dt.Has path name value pos) (hflat : dt.Flattens blob) :
    ∀ node ∈ path, 0x2F ∉ node := fun node hnode =>
  HasProp.slash_free hhas (distinct_block hflat.distinct) node (List.mem_cons_of_mem _ hnode)

/-- Setting a property of a tree leaves the value of every other property of it, the
root's own ones included. -/
theorem Flattens.window_patched (hflat : dt.Flattens blob) (hhas : dt.Has path name value pos)
    (hwidth : value.length = 8) {patched : List Byte} {new : ℕ}
    (hpatched : PatchedAt blob patched (dt.offStruct + pos) new) {path' : List (List Byte)}
    {name' value' : List Byte} {pos' : ℕ} (hother : dt.Has path' name' value' pos')
    (hkeys : ¬ (path' = path ∧ name' = name)) :
    window patched (dt.offStruct + pos') value'.length = value' := by
  have hapart := HasProp.apart hhas hother fun hsame => hkeys ⟨(List.cons.inj hsame.1).2, hsame.2⟩
  calc window patched (dt.offStruct + pos') value'.length
      = window blob (dt.offStruct + pos') value'.length := by
        apply List.ext_getElem?
        intro index
        rw [getElem?_window, getElem?_window]
        split
        · exact hpatched.rest _ (by omega)
        · rfl
    _ = value' := hflat.window_eq hother

end DeviceTree

/-- What a big-endian number of eight bytes reads back as. -/
theorem ofBytes_be64 {value : ℕ} (hvalue : value < 2 ^ 64) : ofBytes (be64 value).reverse = value := by
  rw [be64, List.reverse_reverse]
  exact ofBytes_toBytes 8 value (by norm_num at hvalue ⊢; exact hvalue)

/-- **Patching a device tree touches only its target.**  In a blob that is the flattening
of a tree, the range found for a property of a node below the root is that of its value;
a property of eight bytes can be set, which changes these bytes and nothing else, and one
of any other length is refused; and a property the node does not have is not found.  On
any bytes at all the walk does not panic, and a range it returns is inside. -/
theorem set_u64_touches_only_target :
    (∀ (dt : DeviceTree) (blob : List Byte), dt.Flattens blob →
      ∀ path : List (List Byte), path ≠ [] → ∀ name : List Byte,
        (∀ value pos, dt.Has path name value pos →
          propRange blob (DeviceTree.pathTo path) name =
            some (dt.offStruct + pos, dt.offStruct + (pos + value.length)) ∧
          window blob (dt.offStruct + pos) value.length = value ∧
          (value.length ≠ 8 → ∀ new, setU64 blob (DeviceTree.pathTo path) name new =
            .error (.width (DeviceTree.pathTo path) name value.length)) ∧
          (value.length = 8 → ∀ new < 2 ^ 64, ∃ patched,
            setU64 blob (DeviceTree.pathTo path) name new = .ok patched ∧
            PatchedAt blob patched (dt.offStruct + pos) new ∧
            (propValue patched (DeviceTree.pathTo path) name).map
              (fun bytes => ofBytes bytes.reverse) = some new ∧
            (∀ path' name', ¬ (path' = DeviceTree.pathTo path ∧ name' = name) →
              propValue patched path' name' = propValue blob path' name') ∧
            ∀ path' name' value' pos', dt.Has path' name' value' pos' →
              ¬ (path' = path ∧ name' = name) →
              window patched (dt.offStruct + pos') value'.length = value')) ∧
        ((∀ node ∈ path, 0x2F ∉ node) → (∀ value pos, ¬ dt.Has path name value pos) →
          propRange blob (DeviceTree.pathTo path) name = none ∧
          ∀ new, setU64 blob (DeviceTree.pathTo path) name new =
            .error (.missing (DeviceTree.pathTo path) name))) ∧
    ∀ blob path name : List Byte, blob.length < 2 ^ 63 →
      (Checked.propRange blob path name).run () =
        (Checked.present (propRange blob path name)).run () ∧
      (Checked.propRange blob path name).run () ≠ .panic ∧
      ∀ range, (Checked.propRange blob path name).run () = .ok range () →
        range.1 ≤ range.2 ∧ range.2 ≤ blob.length := by
  refine ⟨fun dt blob hflat path hpath name => ⟨fun value pos hhas => ?_, fun hslash hnot => ?_⟩,
    fun blob path name hblob => ?_⟩
  · have hrange := hflat.propRange_eq hpath (hhas.slash_free hflat) hhas
    refine ⟨hrange, hflat.window_eq hhas, fun hwidth new => ?_, fun hwidth new hnew => ?_⟩
    · have hlength : dt.offStruct + (pos + value.length) - (dt.offStruct + pos) = value.length := by
        omega
      rw [setU64, hrange]
      dsimp only
      rw [hlength, if_pos hwidth]
    · have hfound : dt.tree.lookup (DeviceTree.pathTo path) name = some (pos, 8) := by
        rw [← hwidth]
        exact (DeviceTree.lookup_eq hflat.distinct hpath (hhas.slash_free hflat) name).1 value pos hhas
      obtain ⟨patched, hset, hpatched, hread, hothers⟩ :=
        hflat.wellFormed.setU64_reads hfound new
      refine ⟨patched, hset, hpatched, ?_, hothers, fun path' name' value' pos' hother hkeys => ?_⟩
      · rw [hread, Option.map_some, ofBytes_be64 hnew]
      · exact hflat.window_patched hhas hwidth hpatched hother hkeys
  · have hnone := hflat.propRange_eq_none hpath hslash hnot
    refine ⟨hnone, fun new => ?_⟩
    rw [setU64, hnone]
  · rw [Checked.propRange_eq hblob]
    refine ⟨rfl, ?_, fun range hrun => ?_⟩
    · cases propRange blob path name with
      | none =>
          intro hpanic
          cases hpanic
      | some range =>
          intro hpanic
          cases hpanic
    · cases hfound : propRange blob path name with
      | none =>
          rw [hfound] at hrun
          cases hrun
      | some found =>
          rw [hfound] at hrun
          cases hrun
          exact (propRange_bounds hfound).2

/-- A root with the node `chosen`, and nothing in it but the two properties. -/
def smallDeviceTree : DeviceTree where
  root := .node (ascii "chosen") (.prop 0 (List.replicate 8 0) (.prop 19 (List.replicate 8 0) .nil))
    .nil
  leading := 0
  trailing := 0
  names := smallTree.names
  offStruct := 40
  offStrings := 112
  sizeStrings := 36

theorem flattens_smallDtb : smallDeviceTree.Flattens smallDtb where
  wellFormed := wellFormed_smallDtb
  distinct := by
    refine ⟨List.not_mem_nil, by decide, ⟨?_, List.not_mem_nil, trivial⟩, trivial⟩
    decide

/-- The second of the two is set. -/
theorem set_u64_touches_only_target_small :
    smallDeviceTree.Has [ascii "chosen"] initrdEnd (List.replicate 8 0) 52 ∧
      ∃ patched, setU64 smallDtb chosen initrdEnd 0x80500000 = .ok patched ∧
        PatchedAt smallDtb patched 92 0x80500000 ∧
        propValue patched chosen initrdStart = propValue smallDtb chosen initrdStart := by
  have hhas : smallDeviceTree.Has [ascii "chosen"] initrdEnd (List.replicate 8 0) 52 :=
    .inside [] _ (.inside (ascii "chosen") _ (.behindProp 0 _ (.here 19 _ _)))
  obtain ⟨-, -, -, hset⟩ := (set_u64_touches_only_target.1 _ _ flattens_smallDtb
    [ascii "chosen"] (List.cons_ne_nil _ _) initrdEnd).1 _ _ hhas
  obtain ⟨patched, hpatched, hat, -, hothers, -⟩ := hset rfl 0x80500000 (by norm_num)
  refine ⟨hhas, patched, hpatched, hat, hothers chosen initrdStart fun hsame => ?_⟩
  exact absurd hsame.2 (by decide)

end Baonix.Host.Fdt
