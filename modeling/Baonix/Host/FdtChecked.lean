import Baonix.Host.FdtTree

/-!
# The walker never panics

The walker of `fdt.rs` once more, with the checks it runs under: a sum that does not
fit 64 bits, and a slice that is not inside, are panics.  On every blob it returns what
the walker without the checks returns.
-/

namespace Baonix.Host.Fdt.Checked

open Baonix.LittleEndian
open Window (window)
open Exec (addU64 nextMultipleOf checkedAdd roundUp)

/-- What the walk computes in: `None` is the error. -/
abbrev WalkM := Exec Unit Unit

/-- `?` on an option. -/
def present {Value : Type} : Option Value → WalkM Value
  | some value => pure value
  | none => Exec.raise ()

/-- `&b[first..last]`. -/
def slice (b : List Byte) (first last : ℕ) : WalkM (List Byte) :=
  if first ≤ last ∧ last ≤ b.length then pure (window b first (last - first)) else Exec.panic

def be32 (b : List Byte) (off : ℕ) : WalkM ℕ := do
  let last ← addU64 off 4
  present ((Fdt.get b off last).map fun bytes => ofBytes bytes.reverse)

/-- The closure `cstr`. -/
def cstr (b : List Byte) (first : ℕ) : WalkM ℕ := do
  let rest ← present (if first ≤ b.length then some (b.drop first) else none)
  let index ← present (rest.findIdx? (· = 0))
  addU64 index first

variable (b : Blocks) (path name : List Byte)

/-- The arm `FDT_BEGIN_NODE`. -/
def beginNode (i : ℕ) (stack : List (List Byte)) : WalkM Turn := do
  let last ← cstr b.structs i
  let node ← present (fromUtf8 (← slice b.structs i last))
  let next ← nextMultipleOf (← addU64 last 1) 4
  pure (.next next (stack ++ [node]))

/-- The arm `FDT_PROP`. -/
def prop (i : ℕ) (stack : List (List Byte)) : WalkM Turn := do
  let len ← be32 b.structs i
  let nameoff ← addU64 b.offStrings (← be32 b.structs (← addU64 i 4))
  let i ← addU64 i 8
  let first ← addU64 b.offStruct i
  let last ← present (checkedAdd b.offStruct (← addU64 i len))
  if last > b.blob.length then Exec.raise ()
  else do
    let next ← nextMultipleOf (← addU64 i len) 4
    let pname ← present (fromUtf8 (← slice b.blob nameoff (← cstr b.blob nameoff)))
    if pname = name ∧ stack.length > 1 ∧ pathOf stack = path then pure (.found first last)
    else pure (.next next stack)

/-- One turn of the loop. -/
def turn (i : ℕ) (stack : List (List Byte)) : WalkM Turn := do
  let last ← addU64 i 4
  if last ≤ b.structs.length then do
    let token ← be32 b.structs i
    let i ← addU64 i 4
    if token = fdtBeginNode then beginNode b i stack
    else if token = fdtEndNode then pure (.next i stack.dropLast)
    else if token = fdtProp then prop b path name i stack
    else if token = fdtNop then pure (.next i stack)
    else pure .stop
  else pure .stop

/-- The loop of `prop_range`, for a number of turns. -/
def walk : (turns i : ℕ) → (stack : List (List Byte)) → WalkM (ℕ × ℕ)
  | 0, _, _ => Exec.panic
  | turns + 1, i, stack => do
      match ← turn b path name i stack with
      | .found first last => pure (first, last)
      | .next next nextStack => walk turns next nextStack
      | .stop => Exec.raise ()

/-- `prop_range`; its loop takes at most one turn for each byte of the struct block. -/
def propRange (blob path name : List Byte) : WalkM (ℕ × ℕ) := do
  let magic ← be32 blob 0
  if magic ≠ fdtMagic then Exec.raise ()
  else do
    let offStruct ← be32 blob 8
    let offStrings ← be32 blob 12
    let sizeStruct ← be32 blob 36
    let structs ← present (Fdt.get blob offStruct (← addU64 offStruct sizeStruct))
    walk ⟨blob, offStruct, offStrings, structs⟩ path name (structs.length + 1) 0 []

/-! ## No check fails -/

theorem addU64_eq {first second : ℕ} (hfits : first + second < 2 ^ 64) :
    (addU64 first second : WalkM ℕ) = pure (first + second) := by
  rw [addU64, Exec.fits, if_pos hfits]

theorem nextMultipleOf_eq {value multiple : ℕ} (hfits : roundUp value multiple < 2 ^ 64) :
    (nextMultipleOf value multiple : WalkM ℕ) = pure (roundUp value multiple) := by
  rw [nextMultipleOf, Exec.fits, if_pos hfits]

theorem roundUp_four (value : ℕ) : roundUp value 4 ≤ value + 3 := by
  rw [roundUp]
  split <;> omega

theorem be32_eq {bytes : List Byte} {off : ℕ} (hfits : off + 4 < 2 ^ 64) :
    be32 bytes off = present (Fdt.be32 bytes off) := by
  rw [be32, addU64_eq hfits, pure_bind]
  rfl

theorem be32_lt {bytes : List Byte} {off value : ℕ} (hvalue : Fdt.be32 bytes off = some value) :
    value < 2 ^ 32 := by
  obtain ⟨field, hfield, rfl⟩ := Option.map_eq_some_iff.mp hvalue
  rw [Fdt.get] at hfield
  split at hfield
  · cases hfield
    have hbound := ofBytes_lt (window bytes off (off + 4 - off)).reverse
    rw [List.length_reverse, Window.length_window (by omega), Nat.add_sub_cancel_left] at hbound
    norm_num at hbound ⊢
    exact hbound
  · cases hfield

theorem cstr_bounds {bytes : List Byte} {first last : ℕ}
    (hcstr : Fdt.cstr bytes first = some last) : first ≤ last ∧ last < bytes.length := by
  rw [Fdt.cstr] at hcstr
  split at hcstr
  · obtain ⟨index, hindex, rfl⟩ := Option.map_eq_some_iff.mp hcstr
    have hbound := (List.findIdx?_eq_some_iff_getElem.mp hindex).1
    rw [List.length_drop] at hbound
    omega
  · cases hcstr

theorem cstr_eq {bytes : List Byte} (hlength : bytes.length < 2 ^ 64) (first : ℕ) :
    cstr bytes first = present (Fdt.cstr bytes first) := by
  have hbounds (last : ℕ) : Fdt.cstr bytes first = some last →
      first ≤ last ∧ last < bytes.length := cstr_bounds
  rw [cstr]
  rw [Fdt.cstr] at hbounds ⊢
  split
  · rename_i hfirst
    rw [if_pos hfirst] at hbounds
    change (present ((bytes.drop first).findIdx? (· = 0)) >>= fun index => addU64 index first) = _
    cases hindex : (bytes.drop first).findIdx? (· = 0) with
    | none => rfl
    | some index =>
        rw [hindex] at hbounds
        have hlast := hbounds (index + first) rfl
        exact addU64_eq (by omega)
  · rfl

/-- A string is read without a panic. -/
theorem string_eq {bytes : List Byte} {first last : ℕ}
    (hcstr : Fdt.cstr bytes first = some last) :
    (slice bytes first last >>= fun string => present (fromUtf8 string)) =
      present (Fdt.stringAt bytes first) := by
  have hbounds := cstr_bounds hcstr
  rw [slice, if_pos ⟨hbounds.1, hbounds.2.le⟩, pure_bind, Fdt.stringAt, hcstr]
  rfl

variable {b path name}

/-- The blocks of a blob that fits in memory. -/
structure Fits (b : Blocks) : Prop where
  blob : b.blob.length < 2 ^ 63
  structs : b.structs.length ≤ b.blob.length
  offStruct : b.offStruct < 2 ^ 32
  offStrings : b.offStrings < 2 ^ 32

theorem beginNode_eq (hfits : Fits b) (i : ℕ) (stack : List (List Byte)) :
    beginNode b i stack = present (Fdt.beginNode b i stack) := by
  have hblob := hfits.blob
  have hstructs := hfits.structs
  rw [beginNode, cstr_eq (by omega), Fdt.beginNode]
  cases hcstr : Fdt.cstr b.structs i with
  | none => rfl
  | some last =>
      have hlast := cstr_bounds hcstr
      have hround := roundUp_four (last + 1)
      change (slice b.structs i last >>= fun string => present (fromUtf8 string) >>= _) = _
      rw [← bind_assoc, string_eq hcstr]
      cases Fdt.stringAt b.structs i with
      | none => rfl
      | some node =>
          change (addU64 last 1 >>= fun behind => nextMultipleOf behind 4 >>= _) = _
          rw [addU64_eq (by omega), pure_bind, nextMultipleOf_eq (by omega)]
          rfl

theorem prop_eq (hfits : Fits b) {i : ℕ} (hi : i < 2 ^ 63) (stack : List (List Byte)) :
    prop b path name i stack = present (Fdt.prop b path name i stack) := by
  have hblob := hfits.blob
  have hoffStruct := hfits.offStruct
  have hoffStrings := hfits.offStrings
  rw [prop, be32_eq (by omega), Fdt.prop]
  cases hlen : Fdt.be32 b.structs i with
  | none => rfl
  | some len =>
      have hlenBound := be32_lt hlen
      change (addU64 i 4 >>= fun field => be32 b.structs field >>= _) = _
      rw [addU64_eq (by omega), pure_bind, be32_eq (by omega)]
      cases hnameoff : Fdt.be32 b.structs (i + 4) with
      | none => rfl
      | some nameoff =>
          have hnameoffBound := be32_lt hnameoff
          change (addU64 b.offStrings nameoff >>= _) = _
          rw [addU64_eq (by omega), pure_bind, addU64_eq (by omega), pure_bind,
            addU64_eq (by omega), pure_bind, addU64_eq (by omega), pure_bind, checkedAdd,
            if_pos (by omega)]
          change (if b.offStruct + (i + 8 + len) > b.blob.length then Exec.raise () else _) =
            present (if b.offStruct + (i + 8 + len) > b.blob.length then none else _)
          split
          · rfl
          · have hround := roundUp_four (i + 8 + len)
            rw [pure_bind, nextMultipleOf_eq (by omega), pure_bind, cstr_eq (by omega)]
            cases hcstr : Fdt.cstr b.blob (b.offStrings + nameoff) with
            | none =>
                rw [Fdt.stringAt, hcstr]
                rfl
            | some last =>
                change (slice b.blob (b.offStrings + nameoff) last >>=
                  fun string => present (fromUtf8 string) >>= _) = _
                rw [← bind_assoc, string_eq hcstr]
                cases Fdt.stringAt b.blob (b.offStrings + nameoff) with
                | none => rfl
                | some pname =>
                    change (if pname = name ∧ stack.length > 1 ∧ pathOf stack = path then _ else _) =
                      present (if pname = name ∧ stack.length > 1 ∧ pathOf stack = path then _ else _)
                    split <;> rfl

theorem turn_eq (hfits : Fits b) {i : ℕ} (hi : i ≤ b.blob.length + 3)
    (stack : List (List Byte)) :
    turn b path name i stack = present (Fdt.turn b path name i stack) := by
  have hblob := hfits.blob
  have hstructs := hfits.structs
  rw [turn, addU64_eq (by omega), pure_bind, Fdt.turn]
  by_cases hmore : i + 4 ≤ b.structs.length
  · rw [if_pos hmore, if_pos hmore, be32_eq (by omega)]
    cases Fdt.be32 b.structs i with
    | none => rfl
    | some token =>
        change (pure (i + 4) >>= fun i => if token = fdtBeginNode then beginNode b i stack else _) =
          present (if token = fdtBeginNode then Fdt.beginNode b (i + 4) stack else _)
        rw [pure_bind]
        split
        · exact beginNode_eq hfits (i + 4) stack
        split
        · rfl
        split
        · exact prop_eq hfits (by omega) stack
        split <;> rfl
  · rw [if_neg hmore, if_neg hmore]
    rfl

/-- The loop ends no further than it may read. -/
theorem turn_next (hfits : Fits b) {i next : ℕ} {stack nextStack : List (List Byte)}
    (hturn : Fdt.turn b path name i stack = some (.next next nextStack)) :
    next ≤ b.blob.length + 3 := by
  have hstructs := hfits.structs
  rw [Fdt.turn] at hturn
  split at hturn
  · simp only [Option.bind_eq_bind, Option.bind_eq_some_iff] at hturn
    obtain ⟨token, -, hturn⟩ := hturn
    split at hturn
    · simp only [Fdt.beginNode, Option.bind_eq_bind, Option.bind_eq_some_iff, Option.pure_def,
        Option.some.injEq, Turn.next.injEq] at hturn
      obtain ⟨last, hlast, node, -, rfl, -⟩ := hturn
      have hbounds := cstr_bounds hlast
      have hround := roundUp_four (last + 1)
      omega
    split at hturn
    · cases hturn
      omega
    split at hturn
    · simp only [Fdt.prop, Option.bind_eq_bind, Option.bind_eq_some_iff] at hturn
      obtain ⟨len, -, nameoff, -, hturn⟩ := hturn
      split at hturn
      · cases hturn
      · simp only [Option.bind_eq_some_iff] at hturn
        obtain ⟨pname, -, hturn⟩ := hturn
        have hround := roundUp_four (i + 4 + 8 + len)
        split at hturn
        · cases hturn
        · cases hturn
          omega
    split at hturn
    · cases hturn
      omega
    · cases hturn
  · cases hturn

/-- The loop is over before the turns are. -/
theorem walk_eq (hfits : Fits b) {turns i : ℕ} (hpos : 0 < turns)
    (hturns : b.structs.length < i + turns) (hi : i ≤ b.blob.length + 3)
    (stack : List (List Byte)) :
    walk b path name turns i stack = present (Fdt.walk b path name i stack) := by
  induction turns generalizing i stack with
  | zero => exact absurd hpos (lt_irrefl 0)
  | succ turns ih =>
      rw [walk, turn_eq hfits hi]
      cases hturn : Fdt.turn b path name i stack with
      | none =>
          rw [Fdt.walk]
          split <;> rename_i heq <;> rw [hturn] at heq <;> cases heq
          rfl
      | some step =>
          cases step with
          | found first last =>
              rw [walk_found hturn]
              rfl
          | stop =>
              rw [walk_stop hturn]
              rfl
          | next next nextStack =>
              obtain ⟨hadvances, hmore⟩ := turn_advances hturn
              rw [walk_next hturn]
              exact ih (by omega) (by omega) (turn_next hfits hturn) nextStack

/-- **`prop_range` never panics**: on every blob it returns what the unchecked walker
returns. -/
theorem propRange_eq {blob : List Byte} (hblob : blob.length < 2 ^ 63) (path name : List Byte) :
    propRange blob path name = present (Fdt.propRange blob path name) := by
  rw [propRange, be32_eq (by norm_num), Fdt.propRange, blocks]
  cases hmagic : Fdt.be32 blob 0 with
  | none => rfl
  | some magic =>
      change (if magic ≠ fdtMagic then Exec.raise () else _) =
        present ((if magic ≠ fdtMagic then none else _).bind _)
      split
      · rfl
      rw [be32_eq (by norm_num)]
      cases hoffStruct : Fdt.be32 blob 8 with
      | none => rfl
      | some offStruct =>
          change (be32 blob 12 >>= _) = _
          rw [be32_eq (by norm_num)]
          cases hoffStrings : Fdt.be32 blob 12 with
          | none => rfl
          | some offStrings =>
              change (be32 blob 36 >>= _) = _
              rw [be32_eq (by norm_num)]
              cases hsizeStruct : Fdt.be32 blob 36 with
              | none => rfl
              | some sizeStruct =>
                  have hoffStructBound := be32_lt hoffStruct
                  have hsizeStructBound := be32_lt hsizeStruct
                  change (addU64 offStruct sizeStruct >>= _) = _
                  rw [addU64_eq (by omega), pure_bind]
                  simp only [Option.bind_eq_bind, Option.bind_some]
                  cases hstructs : Fdt.get blob offStruct (offStruct + sizeStruct) with
                  | none => rfl
                  | some structs =>
                      have hlength : structs.length ≤ blob.length := by
                        rw [Fdt.get] at hstructs
                        split at hstructs
                        · cases hstructs
                          rw [Window.length_window (by omega)]
                          omega
                        · cases hstructs
                      have hfits : Fits ⟨blob, offStruct, offStrings, structs⟩ :=
                        ⟨hblob, hlength, hoffStructBound, be32_lt hoffStrings⟩
                      exact walk_eq hfits (Nat.succ_pos _) (by dsimp only; omega) (Nat.zero_le _) []

end Baonix.Host.Fdt.Checked
