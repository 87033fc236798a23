import Baonix.Host.Fdt

/-!
# What the walker finds in a well-formed tree

A struct block is the encoding of a sequence of items.  In such a block the walker
finds the property a declarative lookup names, and overwriting its value with one of
the same length changes nothing that another lookup reads.
-/

namespace Baonix.Host.Fdt

open Baonix.LittleEndian
open Window
open Exec (roundUp le_roundUp dvd_roundUp roundUp_add)

/-- What a struct block is a sequence of. -/
inductive Item
  | beginNode (name : List Byte)
  | endNode
  | prop (nameoff : ℕ) (value : List Byte)
  | nop

/-- `to_be_bytes` of a cell. -/
def cell (value : ℕ) : List Byte := (toBytes 4 value).reverse

/-- Zeros up to a multiple of four. -/
def padded (bytes : List Byte) : List Byte :=
  bytes ++ List.replicate (roundUp bytes.length 4 - bytes.length) 0

def Item.encode : Item → List Byte
  | .beginNode name => cell fdtBeginNode ++ padded (name ++ [0])
  | .endNode => cell fdtEndNode
  | .prop nameoff value =>
      cell fdtProp ++ (cell value.length ++ (cell nameoff ++ padded value))
  | .nop => cell fdtNop

def encode (items : List Item) : List Byte := items.flatMap Item.encode

/-- Where the value of a property is in the struct block, and its length. -/
def lookup (names : ℕ → List Byte) (path name : List Byte) :
    List Item → (pos : ℕ) → (stack : List (List Byte)) → Option (ℕ × ℕ)
  | [], _, _ => none
  | .beginNode node :: items, pos, stack =>
      lookup names path name items (pos + (Item.beginNode node).encode.length) (stack ++ [node])
  | .endNode :: items, pos, stack => lookup names path name items (pos + 4) stack.dropLast
  | .prop nameoff value :: items, pos, stack =>
      if names nameoff = name ∧ stack.length > 1 ∧ pathOf stack = path then
        some (pos + 12, value.length)
      else lookup names path name items (pos + (Item.prop nameoff value).encode.length) stack
  | .nop :: items, pos, stack => lookup names path name items (pos + 4) stack

/-- A string that ends at `first`, in the bytes. -/
structure Named (bytes : List Byte) (first : ℕ) (name : List Byte) : Prop where
  noZero : 0 ∉ name
  utf8 : utf8From none name = true
  terminated : window bytes first (name.length + 1) = name ++ [0]

/-- A tree: its items, its strings and where its blocks are. -/
structure Tree where
  items : List Item
  names : ℕ → List Byte
  offStruct : ℕ
  offStrings : ℕ
  sizeStrings : ℕ

/-- The length of the struct block. -/
def Tree.sizeStruct (tree : Tree) : ℕ := (encode tree.items).length + 4

/-- The token that ends the struct block. -/
def fdtEnd : ℕ := 9

/-- An item whose strings and lengths are right. -/
def Item.Valid (blob : List Byte) (tree : Tree) : Item → Prop
  | .beginNode name => 0 ∉ name ∧ utf8From none name = true
  | .prop nameoff value => value.length < 2 ^ 32 ∧ nameoff < 2 ^ 32 ∧
      Named blob (tree.offStrings + nameoff) (tree.names nameoff) ∧
        nameoff + (tree.names nameoff).length + 1 ≤ tree.sizeStrings
  | .endNode => True
  | .nop => True

/-- The blob is a flattened device tree: the header, the struct block and the strings
are where they should be and do not overlap. -/
structure WellFormed (blob : List Byte) (tree : Tree) : Prop where
  magic : be32 blob 0 = some fdtMagic
  offStruct : be32 blob 8 = some tree.offStruct
  offStrings : be32 blob 12 = some tree.offStrings
  sizeStruct : be32 blob 36 = some tree.sizeStruct
  header : 40 ≤ tree.offStruct
  inside : tree.offStruct + tree.sizeStruct ≤ blob.length
  structs : window blob tree.offStruct tree.sizeStruct = encode tree.items ++ cell fdtEnd
  apart : tree.offStrings + tree.sizeStrings ≤ tree.offStruct ∨
    tree.offStruct + tree.sizeStruct ≤ tree.offStrings
  valid : ∀ item ∈ tree.items, item.Valid blob tree

/-! ## Cells and strings -/

@[simp]
theorem length_cell (value : ℕ) : (cell value).length = 4 := by
  rw [cell, List.length_reverse, length_toBytes]

theorem length_padded (bytes : List Byte) : (padded bytes).length = roundUp bytes.length 4 := by
  rw [padded, List.length_append, List.length_replicate,
    Nat.add_sub_cancel' (le_roundUp bytes.length 4)]

theorem dvd_length_encode (item : Item) : 4 ∣ item.encode.length := by
  cases item with
  | beginNode name =>
      rw [Item.encode, List.length_append, length_cell, length_padded]
      exact Nat.dvd_add (Nat.dvd_refl 4) (dvd_roundUp _ (by norm_num))
  | endNode => exact Nat.dvd_refl 4
  | prop nameoff value =>
      simp only [Item.encode, List.length_append, length_cell, length_padded]
      have hdvd : 4 ∣ roundUp value.length 4 := dvd_roundUp _ (by norm_num)
      omega
  | nop => exact Nat.dvd_refl 4

/-- A number in the bytes. -/
theorem be32_of_cell {bytes before after : List Byte} {value : ℕ} (hvalue : value < 2 ^ 32)
    (hbytes : bytes = before ++ (cell value ++ after)) : be32 bytes before.length = some value := by
  have hfits : before.length ≤ before.length + 4 ∧ before.length + 4 ≤ bytes.length := by
    rw [hbytes, List.length_append, List.length_append, length_cell]
    omega
  have hwindow : window bytes before.length 4 = cell value := by
    rw [hbytes, ← length_cell value, window_append]
  rw [be32, get, if_pos hfits, Nat.add_sub_cancel_left, Option.map_some, hwindow, cell,
    List.reverse_reverse, ofBytes_toBytes 4 value (by norm_num; omega)]

theorem Named.cstr_eq {bytes name : List Byte} {first : ℕ} (hnamed : Named bytes first name) :
    cstr bytes first = some (first + name.length) := by
  have hfits : first + (name.length + 1) ≤ bytes.length := by
    apply fits_of_length_window _ (Nat.succ_pos _)
    rw [hnamed.terminated, List.length_append, List.length_singleton]
  have hsplit : bytes.drop first = name ++ (0 :: (bytes.drop first).drop (name.length + 1)) := by
    have hwhole := List.take_append_drop (name.length + 1) (bytes.drop first)
    have hhead : (bytes.drop first).take (name.length + 1) = name ++ [0] := hnamed.terminated
    rw [hhead, List.append_assoc, List.singleton_append] at hwhole
    exact hwhole.symm
  have hnone : name.findIdx? (· = 0) = none := by
    rw [List.findIdx?_eq_none_iff]
    intro byte hbyte
    have hne : byte ≠ 0 := fun hzero => hnamed.noZero (hzero ▸ hbyte)
    simpa using hne
  rw [cstr, if_pos (by omega), hsplit, List.findIdx?_append, hnone, List.findIdx?_cons]
  simp [Nat.add_comm]

theorem Named.stringAt_eq {bytes name : List Byte} {first : ℕ} (hnamed : Named bytes first name) :
    stringAt bytes first = some name := by
  have hname : window bytes first name.length = name := by
    have hwindow := congrArg (List.take name.length) hnamed.terminated
    rwa [List.take_left, window, List.take_take, min_eq_left (Nat.le_succ _)] at hwindow
  rw [stringAt, hnamed.cstr_eq]
  simp only [Option.bind_eq_bind, Option.bind_some, Nat.add_sub_cancel_left, hname]
  exact if_pos hnamed.utf8

/-- The name of a node in the bytes. -/
theorem named_of_padded {bytes before name after : List Byte} (hzero : 0 ∉ name)
    (hutf8 : utf8From none name = true)
    (hbytes : bytes = before ++ (padded (name ++ [0]) ++ after)) :
    Named bytes before.length name := by
  refine ⟨hzero, hutf8, ?_⟩
  have hlength : name.length + 1 = (name ++ [0]).length := by
    rw [List.length_append, List.length_singleton]
  rw [hbytes, padded, List.append_assoc, hlength, window_append]

/-! ## The walk over a struct block -/

section Walk

variable {b : Blocks} {path name : List Byte} {i : ℕ} {stack : List (List Byte)}

theorem walk_next {next : ℕ} {nextStack : List (List Byte)}
    (hturn : turn b path name i stack = some (.next next nextStack)) :
    walk b path name i stack = walk b path name next nextStack := by
  rw [walk]
  split <;> rename_i heq <;> rw [hturn] at heq <;> cases heq
  rfl

theorem walk_found {first last : ℕ} (hturn : turn b path name i stack = some (.found first last)) :
    walk b path name i stack = some (first, last) := by
  rw [walk]
  split <;> rename_i heq <;> rw [hturn] at heq <;> cases heq
  rfl

theorem walk_stop (hturn : turn b path name i stack = some .stop) :
    walk b path name i stack = none := by
  rw [walk]
  split <;> rename_i heq <;> rw [hturn] at heq <;> cases heq

variable {before after : List Byte}

/-- The token of a turn. -/
theorem turn_of_token {token : ℕ} (htoken : token < 2 ^ 32)
    (hstructs : b.structs = before ++ (cell token ++ after)) :
    turn b path name before.length stack =
      if token = fdtBeginNode then beginNode b (before.length + 4) stack
      else if token = fdtEndNode then some (.next (before.length + 4) stack.dropLast)
      else if token = fdtProp then prop b path name (before.length + 4) stack
      else if token = fdtNop then some (.next (before.length + 4) stack)
      else some .stop := by
  have hfits : before.length + 4 ≤ b.structs.length := by
    rw [hstructs, List.length_append, List.length_append, length_cell]
    omega
  rw [turn, if_pos hfits, be32_of_cell htoken hstructs]
  rfl

/-- A block that goes on behind a cell. -/
theorem append_cell (value : ℕ) {bytes : List Byte} (hbytes : bytes = before ++ (cell value ++ after)) :
    bytes = (before ++ cell value) ++ after ∧ (before ++ cell value).length = before.length + 4 := by
  rw [hbytes, List.append_assoc, List.length_append, length_cell]
  exact ⟨rfl, rfl⟩

theorem turn_beginNode (haligned : 4 ∣ before.length) {node : List Byte} (hzero : 0 ∉ node)
    (hutf8 : utf8From none node = true)
    (hstructs : b.structs = before ++ ((Item.beginNode node).encode ++ after)) :
    turn b path name before.length stack =
      some (.next (before ++ (Item.beginNode node).encode).length (stack ++ [node])) := by
  rw [Item.encode, List.append_assoc] at hstructs
  obtain ⟨hbehind, hlength⟩ := append_cell _ hstructs
  have hnamed := named_of_padded hzero hutf8 hbehind
  rw [hlength] at hnamed
  rw [turn_of_token (by decide) hstructs, if_pos rfl, beginNode, hnamed.cstr_eq, hnamed.stringAt_eq]
  have hdvd : 4 ∣ before.length + 4 := Nat.dvd_add haligned (Nat.dvd_refl 4)
  simp only [Option.bind_eq_bind, Option.bind_some, Option.pure_def, Option.some.injEq,
    Turn.next.injEq, and_true, Item.encode, List.length_append, length_cell, length_padded,
    List.length_singleton]
  rw [Nat.add_assoc, roundUp_add hdvd, Nat.add_assoc]

theorem prop_eq (haligned : 4 ∣ before.length) {nameoff : ℕ} {value pname : List Byte}
    (hvalue : value.length < 2 ^ 32) (hnameoff : nameoff < 2 ^ 32)
    (hnamed : Named b.blob (b.offStrings + nameoff) pname)
    (hinside : b.offStruct + b.structs.length ≤ b.blob.length)
    (hstructs : b.structs = before ++ ((Item.prop nameoff value).encode ++ after)) :
    turn b path name before.length stack =
      if pname = name ∧ stack.length > 1 ∧ pathOf stack = path then
        some (.found (b.offStruct + (before.length + 12))
          (b.offStruct + (before.length + 12 + value.length)))
      else some (.next (before ++ (Item.prop nameoff value).encode).length stack) := by
  have hlengths := congrArg List.length hstructs
  simp only [Item.encode, List.append_assoc] at hstructs
  simp only [Item.encode, List.length_append, length_cell, length_padded] at hlengths
  obtain ⟨hbehind, hlength⟩ := append_cell _ hstructs
  have hlen := be32_of_cell hvalue hbehind
  obtain ⟨hbehind', hlength'⟩ := append_cell _ hbehind
  have hoff := be32_of_cell hnameoff hbehind'
  rw [hlength] at hlen
  rw [hlength', hlength] at hoff
  have hround := le_roundUp value.length 4
  have hfits : ¬ b.offStruct + (before.length + 4 + 8 + value.length) > b.blob.length := by omega
  rw [turn_of_token (by decide) hstructs, if_neg (by decide), if_neg (by decide), if_pos rfl, prop,
    hlen, Option.bind_eq_bind, Option.bind_some, hoff, Option.bind_eq_bind, Option.bind_some]
  dsimp only
  rw [if_neg hfits, hnamed.stringAt_eq]
  have hdvd : 4 ∣ before.length + 4 + 8 := by omega
  have hnext : roundUp (before.length + 4 + 8 + value.length) 4 =
      (before ++ (Item.prop nameoff value).encode).length := by
    rw [roundUp_add hdvd]
    simp only [Item.encode, List.length_append, length_cell, length_padded]
    omega
  rw [hnext]
  rfl

/-- **The walker finds what the lookup names.** -/
theorem walk_encode {names : ℕ → List Byte} (items : List Item) (haligned : 4 ∣ before.length)
    (hinside : b.offStruct + b.structs.length ≤ b.blob.length)
    (hstructs : b.structs = before ++ (encode items ++ cell fdtEnd))
    (hnodes : ∀ node, .beginNode node ∈ items → 0 ∉ node ∧ utf8From none node = true)
    (hprops : ∀ nameoff value, .prop nameoff value ∈ items → value.length < 2 ^ 32 ∧
      nameoff < 2 ^ 32 ∧ Named b.blob (b.offStrings + nameoff) (names nameoff)) :
    walk b path name before.length stack =
      (lookup names path name items before.length stack).map
        fun found => (b.offStruct + found.1, b.offStruct + (found.1 + found.2)) := by
  induction items generalizing before stack with
  | nil =>
      have hstop : turn b path name before.length stack = some .stop := by
        rw [encode, List.flatMap_nil, List.nil_append, ← List.append_nil (cell fdtEnd)] at hstructs
        rw [turn_of_token (by decide) hstructs]
        rfl
      rw [walk_stop hstop]
      rfl
  | cons item items ih =>
      rw [encode, List.flatMap_cons, ← encode, List.append_assoc] at hstructs
      have hrest (later : List (List Byte)) :
          walk b path name (before ++ item.encode).length later =
            (lookup names path name items (before ++ item.encode).length later).map
              fun found => (b.offStruct + found.1, b.offStruct + (found.1 + found.2)) :=
        ih (by rw [List.length_append]; exact Nat.dvd_add haligned (dvd_length_encode item))
          (by rw [hstructs, List.append_assoc])
          (fun node hnode => hnodes node (List.mem_cons_of_mem _ hnode))
          (fun nameoff value hprop => hprops nameoff value (List.mem_cons_of_mem _ hprop))
      rw [List.length_append] at hrest
      cases item with
      | beginNode node =>
          obtain ⟨hzero, hutf8⟩ := hnodes node (List.mem_cons_self ..)
          rw [walk_next (turn_beginNode haligned hzero hutf8 hstructs), List.length_append, hrest,
            lookup]
      | endNode =>
          have hturn : turn b path name before.length stack =
              some (.next (before.length + 4) stack.dropLast) :=
            turn_of_token (by decide : fdtEndNode < 2 ^ 32) hstructs
          rw [walk_next hturn, lookup]
          exact hrest _
      | nop =>
          have hturn : turn b path name before.length stack =
              some (.next (before.length + 4) stack) :=
            turn_of_token (by decide : fdtNop < 2 ^ 32) hstructs
          rw [walk_next hturn, lookup]
          exact hrest _
      | prop nameoff value =>
          obtain ⟨hvalue, hnameoff, hnamed⟩ := hprops nameoff value (List.mem_cons_self ..)
          rw [lookup]
          have hturn : turn b path name before.length stack = _ :=
            prop_eq haligned hvalue hnameoff hnamed hinside hstructs
          split at hturn
          · rename_i hmatch
            rw [walk_found hturn, if_pos hmatch]
            rfl
          · rename_i hmatch
            rw [walk_next hturn, if_neg hmatch, List.length_append, hrest]

end Walk

/-! ## Any blob -/

section Bounds

variable {blob path name : List Byte}

theorem turn_found {b : Blocks} {i first last : ℕ} {stack : List (List Byte)}
    (hturn : turn b path name i stack = some (.found first last)) :
    12 ≤ first ∧ first ≤ last ∧ last ≤ b.blob.length := by
  rw [turn] at hturn
  split at hturn
  · simp only [Option.bind_eq_bind, Option.bind_eq_some_iff] at hturn
    obtain ⟨token, -, hturn⟩ := hturn
    split at hturn
    · simp only [beginNode, Option.bind_eq_bind, Option.bind_eq_some_iff, Option.pure_def,
        Option.some.injEq, reduceCtorEq, and_false, exists_false] at hturn
    · split at hturn
      · cases hturn
      · split at hturn
        · simp only [prop, Option.bind_eq_bind, Option.bind_eq_some_iff] at hturn
          obtain ⟨len, -, nameoff, -, hturn⟩ := hturn
          split at hturn
          · cases hturn
          · simp only [Option.bind_eq_some_iff] at hturn
            obtain ⟨pname, -, hturn⟩ := hturn
            split at hturn
            · cases hturn
              omega
            · cases hturn
        · split at hturn <;> cases hturn
  · cases hturn

theorem walk_bounds {b : Blocks} {i : ℕ} {stack : List (List Byte)} {range : ℕ × ℕ}
    (hwalk : walk b path name i stack = some range) :
    12 ≤ range.1 ∧ range.1 ≤ range.2 ∧ range.2 ≤ b.blob.length := by
  induction i, stack using walk.induct b path name with
  | case1 i stack hturn =>
      rw [walk] at hwalk
      split at hwalk <;> rename_i heq <;> rw [hturn] at heq <;> cases heq
      cases hwalk
  | case2 i stack hturn =>
      rw [walk_stop hturn] at hwalk
      cases hwalk
  | case3 i stack first last hturn =>
      rw [walk_found hturn] at hwalk
      cases hwalk
      exact turn_found hturn
  | case4 i stack next nextStack hturn ih =>
      rw [walk_next hturn] at hwalk
      exact ih hwalk

/-- What is found is in the blob, and not in the first words of its header. -/
theorem propRange_bounds {range : ℕ × ℕ} (hfound : propRange blob path name = some range) :
    12 ≤ range.1 ∧ range.1 ≤ range.2 ∧ range.2 ≤ blob.length := by
  obtain ⟨b, hblocks, hwalk⟩ := Option.bind_eq_some_iff.mp hfound
  have hblob : b.blob = blob := by
    simp only [blocks, Option.bind_eq_bind, Option.bind_eq_some_iff] at hblocks
    obtain ⟨magic, -, hblocks⟩ := hblocks
    split at hblocks
    · cases hblocks
    · simp only [Option.bind_eq_some_iff, Option.pure_def, Option.some.injEq] at hblocks
      obtain ⟨offStruct, -, offStrings, -, sizeStruct, -, structs, -, rfl⟩ := hblocks
      rfl
  have hbounds := walk_bounds hwalk
  rwa [hblob] at hbounds

theorem length_be64 (value : ℕ) : (be64 value).length = 8 := by
  rw [be64, List.length_reverse, length_toBytes]

/-- Patching keeps the length and the first words. -/
theorem setU64_ok {patched : List Byte} {value : ℕ}
    (hset : setU64 blob path name value = .ok patched) :
    patched.length = blob.length ∧ window patched 0 12 = window blob 0 12 := by
  rw [setU64] at hset
  split at hset
  · cases hset
  · rename_i first last hfound
    obtain ⟨hfirst, hle, hlast⟩ := propRange_bounds hfound
    split at hset
    · cases hset
    · cases hset
      dsimp only at hfirst hle hlast
      have hlength := length_be64 value
      have hfits : first + (be64 value).length ≤ blob.length := by omega
      exact ⟨length_overwrite hfits, window_overwrite_of_apart hfits (.inl (by omega))⟩

end Bounds

/-- Where the value of a property of the tree is in its struct block. -/
def Tree.lookup (tree : Tree) (path name : List Byte) : Option (ℕ × ℕ) :=
  Fdt.lookup tree.names path name tree.items 0 []

/-- **`prop_range` finds the properties of a well-formed tree.** -/
theorem WellFormed.propRange_eq {blob : List Byte} {tree : Tree} (hwf : WellFormed blob tree)
    (path name : List Byte) :
    propRange blob path name = (tree.lookup path name).map
      fun found => (tree.offStruct + found.1, tree.offStruct + (found.1 + found.2)) := by
  have hblock : get blob tree.offStruct (tree.offStruct + tree.sizeStruct) =
      some (encode tree.items ++ cell fdtEnd) := by
    rw [get, if_pos ⟨Nat.le_add_right .., hwf.inside⟩, Nat.add_sub_cancel_left, hwf.structs]
  have hblocks : blocks blob =
      some ⟨blob, tree.offStruct, tree.offStrings, encode tree.items ++ cell fdtEnd⟩ := by
    simp only [blocks, hwf.magic, hwf.offStruct, hwf.offStrings, hwf.sizeStruct, hblock,
      Option.bind_eq_bind, Option.bind_some, ne_eq, not_true_eq_false, if_false]
    rfl
  rw [propRange, hblocks, Option.bind_some]
  have hstart : 4 ∣ ([] : List Byte).length := Nat.dvd_zero 4
  apply walk_encode tree.items hstart
  · have hinside := hwf.inside
    rw [Tree.sizeStruct] at hinside
    simpa only [List.length_append, length_cell] using hinside
  · rfl
  · exact fun node hnode => hwf.valid _ hnode
  · intro nameoff value hprop
    obtain ⟨hvalue, hnameoff, hnamed, -⟩ := hwf.valid _ hprop
    exact ⟨hvalue, hnameoff, hnamed⟩

/-! ## Overwriting a value -/

section Lookups

variable {names : ℕ → List Byte} {path name : List Byte}

/-- A property that is found is one of the items. -/
theorem lookup_split {items : List Item} {pos p n : ℕ} {stack : List (List Byte)}
    (hfound : lookup names path name items pos stack = some (p, n)) :
    ∃ before nameoff value after, items = before ++ .prop nameoff value :: after ∧
      p = pos + (encode before).length + 12 ∧ n = value.length := by
  induction items generalizing pos stack with
  | nil => cases hfound
  | cons item items ih =>
      -- the property is further on
      have hlater {pos' : ℕ} {stack' : List (List Byte)} (hpos : pos' = pos + item.encode.length)
          (hrest : lookup names path name items pos' stack' = some (p, n)) :
          ∃ before nameoff value after, item :: items = before ++ .prop nameoff value :: after ∧
            p = pos + (encode before).length + 12 ∧ n = value.length := by
        obtain ⟨before, nameoff, value, after, hitems, hp, hn⟩ := ih hrest
        refine ⟨item :: before, nameoff, value, after, ?_, ?_, hn⟩
        · rw [hitems, List.cons_append]
        · rw [hp, hpos, encode, encode, List.flatMap_cons, List.length_append]
          omega
      cases item with
      | beginNode node => exact hlater rfl hfound
      | endNode => exact hlater (by rw [Item.encode, length_cell]) hfound
      | nop => exact hlater (by rw [Item.encode, length_cell]) hfound
      | prop nameoff value =>
          rw [lookup] at hfound
          split at hfound
          · cases hfound
            exact ⟨[], nameoff, value, items, rfl, rfl, rfl⟩
          · exact hlater rfl hfound

theorem lookup_ge {items : List Item} {pos p n : ℕ} {stack : List (List Byte)}
    (hfound : lookup names path name items pos stack = some (p, n)) : pos + 12 ≤ p := by
  obtain ⟨before, nameoff, value, after, -, hp, -⟩ := lookup_split hfound
  omega

/-- The values of two properties are apart. -/
theorem lookup_apart {path' name' : List Byte} (hkeys : ¬ (path = path' ∧ name = name'))
    {items : List Item} {pos p n q m : ℕ} {stack : List (List Byte)}
    (hfound : lookup names path name items pos stack = some (p, n))
    (hother : lookup names path' name' items pos stack = some (q, m)) :
    p + n ≤ q ∨ q + m ≤ p := by
  induction items generalizing pos stack with
  | nil => cases hfound
  | cons item items ih =>
      cases item with
      | beginNode node => exact ih hfound hother
      | endNode => exact ih hfound hother
      | nop => exact ih hfound hother
      | prop nameoff value =>
          have hround := le_roundUp value.length 4
          have hlength : (Item.prop nameoff value).encode.length =
              12 + roundUp value.length 4 := by
            simp only [Item.encode, List.length_append, length_cell, length_padded]
            omega
          rw [lookup] at hfound hother
          split at hfound <;> split at hother
          · rename_i hfirst hsecond
            exact absurd ⟨hfirst.2.2.symm.trans hsecond.2.2, hfirst.1.symm.trans hsecond.1⟩ hkeys
          · cases hfound
            have hge := lookup_ge hother
            left
            omega
          · cases hother
            have hge := lookup_ge hfound
            right
            omega
          · exact ih hfound hother

/-- Lookups do not read values. -/
theorem lookup_replace {before after : List Item} {nameoff : ℕ} {value new : List Byte}
    (hlength : new.length = value.length) (pos : ℕ) (stack : List (List Byte)) :
    lookup names path name (before ++ .prop nameoff new :: after) pos stack =
      lookup names path name (before ++ .prop nameoff value :: after) pos stack := by
  induction before generalizing pos stack with
  | nil =>
      have hencode : (Item.prop nameoff new).encode.length =
          (Item.prop nameoff value).encode.length := by
        simp only [Item.encode, List.length_append, length_cell, length_padded, hlength]
      rw [List.nil_append, List.nil_append, lookup, lookup, hlength, hencode]
  | cons item before ih =>
      rw [List.cons_append, List.cons_append]
      cases item with
      | beginNode node => exact ih ..
      | endNode => exact ih ..
      | nop => exact ih ..
      | prop nameoff' value' =>
          rw [lookup, lookup, ih]

end Lookups

/-- Overwriting behind a number. -/
theorem be32_overwrite {blob new : List Byte} {off first : ℕ} (hbefore : off + 4 ≤ first)
    (hfits : first + new.length ≤ blob.length) :
    be32 (overwrite blob first new) off = be32 blob off := by
  rw [be32, be32, get, get, length_overwrite hfits, Nat.add_sub_cancel_left,
    window_overwrite_of_apart hfits (.inl hbefore)]

/-- Overwriting apart from the strings. -/
theorem Item.Valid.overwrite {blob new : List Byte} {tree : Tree} {first : ℕ} {item : Item}
    (hvalid : item.Valid blob tree) (hfits : first + new.length ≤ blob.length)
    (hapart : tree.offStrings + tree.sizeStrings ≤ first ∨
      first + new.length ≤ tree.offStrings) (items : List Item) :
    item.Valid (Window.overwrite blob first new) { tree with items := items } := by
  cases item with
  | beginNode node => exact hvalid
  | endNode => trivial
  | nop => trivial
  | prop nameoff value =>
      obtain ⟨hvalue, hnameoff, hnamed, hinside⟩ := hvalid
      refine ⟨hvalue, hnameoff, ⟨hnamed.noZero, hnamed.utf8, ?_⟩, hinside⟩
      rw [window_overwrite_of_apart hfits]
      · exact hnamed.terminated
      · dsimp only
        omega

/-- **Overwriting a value keeps the tree well formed**, with the same properties in the
same places. -/
theorem WellFormed.overwrite {blob new path name : List Byte} {tree : Tree}
    (hwf : WellFormed blob tree) {p : ℕ} (hfound : tree.lookup path name = some (p, new.length)) :
    tree.offStruct + p + new.length ≤ blob.length ∧
      ∃ items, WellFormed (Window.overwrite blob (tree.offStruct + p) new)
          { tree with items := items } ∧
        ∀ path name, Tree.lookup { tree with items := items } path name = tree.lookup path name := by
  obtain ⟨before, nameoff, value, after, hitems, hp, hlength⟩ := lookup_split hfound
  -- the struct block around the value
  have hsplit (bytes : List Byte) (hbytes : bytes.length = value.length) :
      encode (before ++ .prop nameoff bytes :: after) ++ cell fdtEnd =
        (encode before ++ (cell fdtProp ++ (cell value.length ++ cell nameoff))) ++
          (bytes ++ (List.replicate (roundUp value.length 4 - value.length) 0 ++
            (encode after ++ cell fdtEnd))) := by
    simp only [encode, List.flatMap_append, List.flatMap_cons, Item.encode, padded, hbytes,
      List.append_assoc]
  have hposition : (encode before ++ (cell fdtProp ++ (cell value.length ++ cell nameoff))).length =
      p := by
    simp only [hp, List.length_append, length_cell]
    omega
  have hsize : (encode (before ++ .prop nameoff new :: after)).length = (encode tree.items).length := by
    have hnew := congrArg List.length (hsplit new hlength)
    have hold := congrArg List.length (hsplit value rfl)
    rw [← hitems] at hold
    simp only [List.length_append, length_cell, hlength] at hnew hold ⊢
    omega
  have hinside : p + new.length ≤ tree.sizeStruct := by
    have hold := congrArg List.length (hsplit value rfl)
    rw [← hitems] at hold
    simp only [List.length_append, length_cell] at hold hposition
    rw [Tree.sizeStruct]
    omega
  have hblob := hwf.inside
  have hheader := hwf.header
  have hfits : tree.offStruct + p + new.length ≤ blob.length := by omega
  have hstrings := hwf.apart
  refine ⟨hfits, before ++ .prop nameoff new :: after, ?_, ?_⟩
  · have hsame : Tree.sizeStruct { tree with items := before ++ .prop nameoff new :: after } =
        tree.sizeStruct := by
      rw [Tree.sizeStruct, Tree.sizeStruct, hsize]
    refine ⟨?_, ?_, ?_, ?_, hheader, ?_, ?_, ?_, ?_⟩
    · rw [be32_overwrite (by omega) hfits]
      exact hwf.magic
    · rw [be32_overwrite (by omega) hfits]
      exact hwf.offStruct
    · rw [be32_overwrite (by omega) hfits]
      exact hwf.offStrings
    · rw [be32_overwrite (by omega) hfits, hsame]
      exact hwf.sizeStruct
    · rw [hsame, length_overwrite hfits]
      exact hblob
    · rw [hsame, window_overwrite_inside hblob hinside, hwf.structs, hitems, hsplit value rfl,
        hsplit new hlength, ← hposition, overwrite_append _ _ _ hlength.symm]
    · rw [hsame]
      exact hstrings
    · intro item hitem
      have hvalid : item.Valid blob tree := by
        rw [List.mem_append, List.mem_cons] at hitem
        rcases hitem with hbefore | rfl | hafter
        · exact hwf.valid item (hitems ▸ List.mem_append_left _ hbefore)
        · obtain ⟨hvalue, hrest⟩ := hwf.valid (.prop nameoff value)
            (hitems ▸ List.mem_append_right _ (List.mem_cons_self ..))
          exact ⟨hlength ▸ hvalue, hrest⟩
        · exact hwf.valid item
            (hitems ▸ List.mem_append_right _ (List.mem_cons_of_mem _ hafter))
      apply hvalid.overwrite hfits
      omega
  · intro path name
    rw [Tree.lookup, Tree.lookup, hitems]
    exact lookup_replace hlength 0 []

/-- The tree a blob becomes, but for two values of eight bytes. -/
structure Recorded (blob patched : List Byte) (p q first last : ℕ) : Prop where
  length : patched.length = blob.length
  first : window patched p 8 = be64 first
  last : window patched q 8 = be64 last
  rest : ∀ index, ¬ (p ≤ index ∧ index < p + 8) → ¬ (q ≤ index ∧ index < q + 8) →
    patched[index]? = blob[index]?

/-- `set_u64` of a property of eight bytes. -/
theorem WellFormed.setU64_eq {blob path name : List Byte} {tree : Tree}
    (hwf : WellFormed blob tree) {p : ℕ} (hfound : tree.lookup path name = some (p, 8))
    (value : ℕ) :
    setU64 blob path name value = .ok (Window.overwrite blob (tree.offStruct + p) (be64 value)) := by
  rw [setU64, hwf.propRange_eq, hfound, Option.map_some]
  dsimp only
  rw [if_neg (by omega)]

/-- **Two properties are set**, and nothing else changes. -/
theorem WellFormed.recorded {blob path name path' name' : List Byte} {tree : Tree}
    (hwf : WellFormed blob tree) {p q : ℕ} (hnames : name ≠ name')
    (hfirst : tree.lookup path name = some (p, 8))
    (hlast : tree.lookup path' name' = some (q, 8)) (first last : ℕ) :
    ∃ patched, (do
        let middle ← setU64 blob path name first
        setU64 middle path' name' last) = .ok patched ∧
      Recorded blob patched (tree.offStruct + p) (tree.offStruct + q) first last := by
  have hlengthFirst := length_be64 first
  have hlengthLast := length_be64 last
  have hfound : tree.lookup path name = some (p, (be64 first).length) := by
    rw [hlengthFirst, hfirst]
  obtain ⟨hfits, items, hmiddle, hlookup⟩ := hwf.overwrite hfound
  have hfound' : Tree.lookup { tree with items := items } path' name' =
      some (q, (be64 last).length) := by
    rw [hlengthLast, hlookup, hlast]
  obtain ⟨hfits', -⟩ := hmiddle.overwrite hfound'
  have hset : setU64 (Window.overwrite blob (tree.offStruct + p) (be64 first)) path' name' last =
      .ok (Window.overwrite (Window.overwrite blob (tree.offStruct + p) (be64 first))
        (tree.offStruct + q) (be64 last)) :=
    hmiddle.setU64_eq (by rw [hlookup]; exact hlast) last
  refine ⟨Window.overwrite (Window.overwrite blob (tree.offStruct + p) (be64 first))
    (tree.offStruct + q) (be64 last), ?_, ?_⟩
  · rw [hwf.setU64_eq hfirst first]
    exact hset
  · have hapart := lookup_apart (fun hkeys => hnames hkeys.2) hfirst hlast
    dsimp only at hfits'
    rw [hlengthFirst] at hfits
    refine ⟨?_, ?_, ?_, ?_⟩
    · rw [length_overwrite hfits', length_overwrite (by rw [hlengthFirst]; exact hfits)]
    · rw [window_overwrite_of_apart hfits' (by omega), ← hlengthFirst,
        window_overwrite_self (by rw [hlengthFirst]; exact hfits)]
    · rw [← hlengthLast, window_overwrite_self hfits']
    · intro index hp hq
      rw [getElem?_overwrite hfits', if_neg (by omega), getElem?_overwrite (by omega),
        if_neg (by omega)]

end Baonix.Host.Fdt
