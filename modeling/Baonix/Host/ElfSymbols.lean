import Baonix.Host.ElfSegments
import Baonix.Lib.Turns

/-!
# Looking a symbol up

`find_symbol` goes over the section headers, over the symbols of each symbol table, and
along the name of each symbol.  It computes until it returns, so that what it returns
is the error its loops end in.
-/

namespace Baonix.Host.Elf

open Baonix.Core Baonix.LittleEndian
open Exec (addU64 checkedAdd fits)

def shdrLen : ℕ := 64
def symLen : ℕ := 24
def shtSymtab : ℕ := 2

/-- What runs until `return`. -/
abbrev Search := Exec (Option ℕ) Unit

/-- `return`. -/
def answer {Value : Type} (result : Option ℕ) : Search Value := Exec.raise result

/-- `?`. -/
def orNone {Value : Type} : Option Value → Search Value
  | some value => pure value
  | none => answer none

/-- `Header`, the section table of it. -/
structure SectionTable where
  shoff : ℕ
  shentsize : ℕ
  shnum : ℕ

def sectionTable (bytes : List Byte) : Search SectionTable :=
  if ¬ recognized bytes then answer none
  else do
    let shoff ← orNone (← u64At bytes 40)
    let shentsize ← orNone (← u16At bytes 58)
    let shnum ← orNone (← u16At bytes 60)
    pure ⟨shoff, shentsize, shnum⟩

/-- A field of a section header, of `n` bytes. -/
def sectionField (n : ℕ) (bytes : List Byte) (sh off : ℕ) : Search ℕ := do
  orNone (← numberAt n bytes (← addU64 sh off))

/-- A symbol table, and the strings its names are in. -/
structure SymbolTable where
  strs : List Byte
  symOff : ℕ
  symSize : ℕ
  entsize : ℕ
  deriving DecidableEq

/-- The section, if it is a symbol table; `none` is `continue`. -/
def symbolTable (bytes : List Byte) (h : SectionTable) (i : ℕ) : Search (Option SymbolTable) := do
  let sh ← addU64 h.shoff (i * h.shentsize)
  let kind ← sectionField 4 bytes sh 4
  if kind ≠ shtSymtab then pure none
  else do
    let symOff ← sectionField 8 bytes sh 24
    let symSize ← sectionField 8 bytes sh 32
    let entsize ← sectionField 8 bytes sh 56
    if entsize < symLen then pure none
    else do
      let link ← sectionField 4 bytes sh 40
      let strtab ← addU64 h.shoff (link * h.shentsize)
      let strOff ← sectionField 8 bytes strtab 24
      let strSize ← sectionField 8 bytes strtab 32
      let last ← orNone (checkedAdd strOff strSize)
      let strs ← orNone
        (if last ≤ bytes.length then some ((bytes.drop strOff).take strSize) else none)
      pure (some ⟨strs, symOff, symSize, entsize⟩)

/-- The name at an index of the strings, up to its zero. -/
def nameAt (strs : List Byte) (stName : ℕ) : Option (List Byte) :=
  if stName ≤ strs.length then some ((strs.drop stName).takeWhile (· ≠ 0)) else none

/-- The body of the loop over the symbols of a table. -/
def symbolTurn (bytes name : List Byte) (table : SymbolTable) (n : ℕ) : Search PUnit := do
  let s ← addU64 table.symOff (← fits (n * table.entsize))
  match (← u32At bytes s).bind (nameAt table.strs) with
  | none => pure ⟨⟩
  | some found =>
      if found = name then do
        answer (← u64At bytes (← addU64 s 8))
      else pure ⟨⟩

/-- The body of the loop over the sections. -/
def sectionTurn (bytes name : List Byte) (h : SectionTable) (i : ℕ) : Search PUnit := do
  match ← symbolTable bytes h i with
  | none => pure ⟨⟩
  | some table =>
      Exec.each (symbolTurn bytes name table) (List.range (table.symSize / table.entsize))

def findSymbol (bytes name : List Byte) : Search PUnit := do
  let h ← sectionTable bytes
  if h.shentsize < shdrLen then answer none
  else do
    Exec.each (sectionTurn bytes name h) (List.range h.shnum)
    answer none

/-! ## Turns -/

/-- Where the `n`-th symbol of a table is. -/
def SymbolTable.at (table : SymbolTable) (n : ℕ) : ℕ := table.symOff + n * table.entsize

/-- The name of a symbol, if its entry and its name are inside. -/
def nameOf (bytes : List Byte) (table : SymbolTable) (n : ℕ) : Option (List Byte) :=
  (if table.at n + 4 ≤ bytes.length then some (number 4 bytes (table.at n)) else none).bind
    (nameAt table.strs)

/-- A turn over a symbol, and those along its name. -/
def symbolCost (bytes : List Byte) (table : SymbolTable) (n : ℕ) (_ : Unit) : ℕ :=
  1 + (nameOf bytes table n).elim 0 List.length

/-- A turn over a section, and those over its symbols. -/
def sectionCost (bytes name : List Byte) (h : SectionTable) (i : ℕ) (_ : Unit) : ℕ :=
  1 + match (symbolTable bytes h i).run () with
    | .ok (some table) _ =>
        Exec.turns (symbolTurn bytes name table) (symbolCost bytes table)
          (List.range (table.symSize / table.entsize)) ()
    | _ => 0

/-- The turns of the loops of `find_symbol`. -/
def findTurns (bytes name : List Byte) : ℕ :=
  match (sectionTable bytes).run () with
  | .ok h _ =>
      if h.shentsize < shdrLen then 0
      else Exec.turns (sectionTurn bytes name h) (sectionCost bytes name h) (List.range h.shnum) ()
  | _ => 0

/-! ## What the sections declare -/

def tableOf (bytes : List Byte) : SectionTable :=
  ⟨number 8 bytes 40, number 2 bytes 58, number 2 bytes 60⟩

/-- Where the `i`-th section header is. -/
def sectionAt (bytes : List Byte) (i : ℕ) : ℕ :=
  (tableOf bytes).shoff + i * (tableOf bytes).shentsize

/-- Where the `n`-th symbol of the `i`-th section is. -/
def symbolAt (bytes : List Byte) (i n : ℕ) : ℕ :=
  number 8 bytes (sectionAt bytes i + 24) + n * number 8 bytes (sectionAt bytes i + 56)

/-- How many symbols the `i`-th section declares, if it is a symbol table. -/
def symbolCount (bytes : List Byte) (i : ℕ) : ℕ :=
  if sectionAt bytes i + shdrLen ≤ bytes.length ∧
      number 4 bytes (sectionAt bytes i + 4) = shtSymtab ∧
      symLen ≤ number 8 bytes (sectionAt bytes i + 56) then
    number 8 bytes (sectionAt bytes i + 32) / number 8 bytes (sectionAt bytes i + 56)
  else 0

/-- The first section header is in the address space, and so are the symbols. -/
structure SectionsFit (bytes : List Byte) : Prop where
  first : recognized bytes → shdrLen ≤ (tableOf bytes).shentsize → 0 < (tableOf bytes).shnum →
    (tableOf bytes).shoff + 8 < 2 ^ 64
  symbols : ∀ i < (tableOf bytes).shnum, ∀ n < symbolCount bytes i, symbolAt bytes i n + 4 < 2 ^ 64

/-- A symbol table as its section declares it. -/
structure Declared (bytes : List Byte) (i : ℕ) (table : SymbolTable) : Prop where
  strs : table.strs.length ≤ bytes.length
  count : table.symSize / table.entsize = symbolCount bytes i
  place : ∀ n, table.at n = symbolAt bytes i n
  product : ∀ n < symbolCount bytes i, n * table.entsize < 2 ^ 64

section Reading

variable {bytes name : List Byte} {h : SectionTable}

theorem sectionTable_eq : sectionTable bytes =
    if recognized bytes then pure (tableOf bytes) else answer none := by
  rw [sectionTable]
  by_cases hrecognized : recognized bytes
  · have hlength : 64 ≤ bytes.length := hrecognized.1
    rw [if_neg (not_not.mpr hrecognized), if_pos hrecognized]
    simp only [u64At, u16At]
    rw [numberAt_eq (by norm_num), numberAt_eq (by norm_num), numberAt_eq (by norm_num),
      if_pos (by omega), if_pos (by omega), if_pos (by omega)]
    rfl
  · rw [if_pos hrecognized, if_neg hrecognized]

theorem sectionField_eq {n sh off : ℕ} (hfits : sh + off + n < 2 ^ 64) :
    sectionField n bytes sh off =
      if sh + off + n ≤ bytes.length then pure (number n bytes (sh + off)) else answer none := by
  rw [sectionField, addU64_eq (by omega), pure_bind, numberAt_eq hfits, pure_bind]
  split <;> rfl

/-- **A section** is read, or the search is over. -/
theorem symbolTable_spec (hlength : bytes.length < 2 ^ 63) {i : ℕ}
    (hfits : sectionAt bytes i + 8 < 2 ^ 64) :
    Exec.wp (symbolTable bytes (tableOf bytes) i)
      (fun found _ => sectionAt bytes i + 8 ≤ bytes.length ∧
        ∀ table ∈ found, Declared bytes i table) (fun _ _ => True) False () := by
  have hshoff : (tableOf bytes).shoff ≤ sectionAt bytes i := Nat.le_add_right _ _
  have hentry : (tableOf bytes).shentsize < 256 ^ 2 := number_lt bytes 58
  have haddr : (addU64 (tableOf bytes).shoff (i * (tableOf bytes).shentsize) : Search ℕ) =
      pure (sectionAt bytes i) := addU64_eq (by rw [← sectionAt]; omega)
  rw [symbolTable, haddr, pure_bind, sectionField_eq (by omega)]
  split
  on_goal 2 => trivial
  rename_i hkind
  rw [pure_bind, Exec.wp_ite]
  split
  · exact ⟨by omega, fun table htable => nomatch htable⟩
  rename_i hsymtab
  -- each field is inside, or the search is over
  rw [sectionField_eq (by omega)]
  split
  on_goal 2 => trivial
  rw [pure_bind, sectionField_eq (by omega)]
  split
  on_goal 2 => trivial
  rw [pure_bind, sectionField_eq (by omega)]
  split
  on_goal 2 => trivial
  rename_i hheader
  rw [pure_bind, Exec.wp_ite]
  split
  · exact ⟨by omega, fun table htable => nomatch htable⟩
  rename_i hentsize
  rw [sectionField_eq (by omega), if_pos (by omega), pure_bind]
  have hlink : number 4 bytes (sectionAt bytes i + 40) < 256 ^ 4 := number_lt bytes _
  have hproduct : number 4 bytes (sectionAt bytes i + 40) * (tableOf bytes).shentsize <
      256 ^ 4 * 256 ^ 2 := Nat.mul_lt_mul'' hlink hentry
  rw [addU64_eq (by omega), pure_bind, sectionField_eq (by omega)]
  split
  on_goal 2 => trivial
  rw [pure_bind, sectionField_eq (by omega)]
  split
  on_goal 2 => trivial
  rw [pure_bind, checkedAdd]
  split
  on_goal 2 => trivial
  rw [orNone, pure_bind]
  split
  on_goal 2 => trivial
  rw [orNone, pure_bind]
  have hcount : symbolCount bytes i = number 8 bytes (sectionAt bytes i + 32) /
      number 8 bytes (sectionAt bytes i + 56) := by
    rw [symbolCount, if_pos ⟨hheader, not_not.mp hsymtab, not_lt.mp hentsize⟩]
  refine ⟨by omega, fun table htable => ?_⟩
  cases htable
  refine ⟨?_, hcount.symm, fun n => rfl, fun n hn => ?_⟩
  · dsimp only
    rw [List.length_take, List.length_drop]
    omega
  · have hsize : number 8 bytes (sectionAt bytes i + 32) < 256 ^ 8 := number_lt bytes _
    rw [hcount] at hn
    dsimp only
    have hmul : n * number 8 bytes (sectionAt bytes i + 56) ≤
        number 8 bytes (sectionAt bytes i + 32) :=
      (Nat.mul_le_mul_right _ hn.le).trans (Nat.div_mul_le_self _ _)
    omega

/-- A turn over a symbol in the address space: it goes on, or returns. -/
theorem symbolTurn_eq (hlength : bytes.length < 2 ^ 63) {table : SymbolTable} {n : ℕ}
    (hproduct : n * table.entsize < 2 ^ 64) (hfits : table.at n + 4 < 2 ^ 64) :
    symbolTurn bytes name table n =
      if nameOf bytes table n = some name then
        answer (if table.at n + 8 + 8 ≤ bytes.length then some (number 8 bytes (table.at n + 8))
          else none)
      else pure ⟨⟩ := by
  have hplace : table.symOff + n * table.entsize = table.at n := rfl
  rw [symbolTurn, Exec.fits, if_pos hproduct, pure_bind, addU64_eq (by omega), hplace, pure_bind,
    u32At, numberAt_eq hfits, pure_bind, nameOf]
  by_cases hinside : table.at n + 4 ≤ bytes.length
  · rw [if_pos hinside, Option.bind_some]
    cases nameAt table.strs (number 4 bytes (table.at n)) with
    | none => rfl
    | some found =>
        dsimp only
        by_cases hname : found = name
        · rw [if_pos hname, if_pos (by rw [hname]), addU64_eq (by omega), pure_bind, u64At,
            numberAt_eq (by omega), pure_bind]
        · rw [if_neg hname, if_neg fun hsame => hname (Option.some.inj hsame)]
  · rw [if_neg hinside]
    rfl

theorem length_nameOf {table : SymbolTable} {n : ℕ} {found : List Byte}
    (hfound : nameOf bytes table n = some found) : found.length ≤ table.strs.length := by
  obtain ⟨stName, -, hname⟩ := Option.bind_eq_some_iff.mp hfound
  rw [nameAt] at hname
  split at hname
  · cases hname
    calc ((table.strs.drop stName).takeWhile (· ≠ 0)).length
        ≤ (table.strs.drop stName).length := (List.takeWhile_prefix _).length_le
      _ ≤ table.strs.length := by
        rw [List.length_drop]
        omega
  · cases hname

/-! ## Every search returns -/

section Total

variable {i : ℕ}

theorem symbols_total (hlength : bytes.length < 2 ^ 63)
    (hsymbols : ∀ n < symbolCount bytes i, symbolAt bytes i n + 4 < 2 ^ 64) {table : SymbolTable}
    (hdeclared : Declared bytes i table) :
    Exec.wp (Exec.each (symbolTurn bytes name table) (List.range (table.symSize / table.entsize)))
      (fun _ _ => True) (fun _ _ => True) False () := by
  apply Exec.wp_each_range (fun _ _ => True) trivial
  intro n hn _ _
  rw [hdeclared.count] at hn
  have hfits : table.at n + 4 < 2 ^ 64 := by
    rw [hdeclared.place]
    exact hsymbols n hn
  rw [symbolTurn_eq hlength (hdeclared.product n hn) hfits, Exec.wp_ite]
  split <;> trivial

/-- A turn over a section that goes on has read it. -/
theorem sectionTurn_spec (hlength : bytes.length < 2 ^ 63)
    (hfits : sectionAt bytes i + 8 < 2 ^ 64)
    (hsymbols : ∀ n < symbolCount bytes i, symbolAt bytes i n + 4 < 2 ^ 64) :
    Exec.wp (sectionTurn bytes name (tableOf bytes) i)
      (fun _ _ => sectionAt bytes i + 8 ≤ bytes.length) (fun _ _ => True) False () := by
  rw [sectionTurn, Exec.wp_bind]
  apply (symbolTable_spec hlength hfits).imp_post
  rintro found ⟨⟩ ⟨hkind, hdeclared⟩
  cases found with
  | none => exact hkind
  | some table =>
      exact (symbols_total hlength hsymbols (hdeclared table rfl)).imp_post (fun _ _ _ => hkind)

theorem sectionAt_succ_fits (hlength : bytes.length < 2 ^ 63)
    (hkind : sectionAt bytes i + 8 ≤ bytes.length) : sectionAt bytes (i + 1) + 8 < 2 ^ 64 := by
  have hentry : (tableOf bytes).shentsize < 256 ^ 2 := number_lt bytes 58
  have hnext : sectionAt bytes (i + 1) = sectionAt bytes i + (tableOf bytes).shentsize := by
    rw [sectionAt, sectionAt, Nat.succ_mul, Nat.add_assoc]
  omega

/-- **`find_symbol` returns.** -/
theorem findSymbol_total (hlength : bytes.length < 2 ^ 63) (hfit : SectionsFit bytes)
    (name : List Byte) : ∃ result, (findSymbol bytes name).run () = .error result () := by
  have hspec : Exec.wp (findSymbol bytes name) (fun _ _ => False) (fun _ _ => True) False () := by
    rw [findSymbol, sectionTable_eq, Exec.wp_bind]
    split
    on_goal 2 => trivial
    rename_i hrecognized
    rw [Exec.wp_pure, Exec.wp_ite]
    split
    · trivial
    rename_i hlong
    rw [Exec.wp_bind]
    have hstart : 0 < (tableOf bytes).shnum → sectionAt bytes 0 + 8 < 2 ^ 64 := by
      rw [sectionAt, Nat.zero_mul, Nat.add_zero]
      exact hfit.first hrecognized (not_lt.mp hlong)
    apply (Exec.wp_each_range (fun i _ =>
      i < (tableOf bytes).shnum → sectionAt bytes i + 8 < 2 ^ 64) hstart ?_).imp_post
    exact fun _ _ _ => trivial
    · intro i hi _ hmiddle
      exact (sectionTurn_spec hlength (hmiddle hi) (hfit.symbols i hi)).imp_post
        (fun _ _ hkind _ => sectionAt_succ_fits hlength hkind)
  obtain ⟨result, ⟨⟩, hrun, -⟩ := hspec.exists_error
  exact ⟨result, hrun⟩

end Total

/-! ## Its turns -/

theorem symbolCost_le {i : ℕ} {table : SymbolTable} (hdeclared : Declared bytes i table) (n : ℕ) :
    symbolCost bytes table n () ≤ 1 + bytes.length := by
  rw [symbolCost]
  cases hname : nameOf bytes table n with
  | none => exact Nat.le_add_right _ _
  | some found => exact Nat.add_le_add_left ((length_nameOf hname).trans hdeclared.strs) 1

/-- A section out of the address space. -/
theorem symbolTable_panic {i : ℕ} (hover : 2 ^ 64 ≤ sectionAt bytes i + 8) :
    (symbolTable bytes (tableOf bytes) i).run () = .panic := by
  rw [symbolTable, addU64, Exec.fits]
  change 2 ^ 64 ≤ (tableOf bytes).shoff + i * (tableOf bytes).shentsize + 8 at hover
  by_cases hbase : (tableOf bytes).shoff + i * (tableOf bytes).shentsize < 2 ^ 64
  · rw [if_pos hbase, pure_bind, sectionField, addU64, Exec.fits]
    by_cases hfield : (tableOf bytes).shoff + i * (tableOf bytes).shentsize + 4 < 2 ^ 64
    · rw [if_pos hfield, pure_bind, numberAt, bytesAt, addU64, Exec.fits, if_neg (by omega)]
      rfl
    · rw [if_neg hfield]
      rfl
  · rw [if_neg hbase]
    rfl

/-- A section that is read. -/
theorem symbolTable_ok (hlength : bytes.length < 2 ^ 63) {i : ℕ} {found : Option SymbolTable}
    (hrun : (symbolTable bytes (tableOf bytes) i).run () = .ok found ()) :
    sectionAt bytes i + 8 ≤ bytes.length ∧ ∀ table ∈ found, Declared bytes i table := by
  by_cases hfits : sectionAt bytes i + 8 < 2 ^ 64
  · exact (symbolTable_spec hlength hfits).of_run_ok hrun
  · rw [symbolTable_panic (not_lt.mp hfits)] at hrun
    cases hrun

theorem sectionCost_of_table {i : ℕ} {table : SymbolTable}
    (hrun : (symbolTable bytes h i).run () = .ok (some table) ()) :
    sectionCost bytes name h i () = 1 + Exec.turns (symbolTurn bytes name table)
      (symbolCost bytes table) (List.range (table.symSize / table.entsize)) () := by
  rw [sectionCost, hrun]

theorem sectionCost_le (hlength : bytes.length < 2 ^ 63) (i : ℕ) :
    sectionCost bytes name (tableOf bytes) i () ≤ 1 + symbolCount bytes i * (1 + bytes.length) := by
  rw [sectionCost]
  apply Nat.add_le_add_left
  split
  · rename_i table after hrun
    have hdeclared := (symbolTable_ok hlength hrun).2 table rfl
    calc Exec.turns (symbolTurn bytes name table) (symbolCost bytes table)
          (List.range (table.symSize / table.entsize)) ()
        ≤ ((List.range (table.symSize / table.entsize)).map fun _ => 1 + bytes.length).sum :=
          Exec.turns_le_sum (fun n _ _ => symbolCost_le hdeclared n) ()
      _ = symbolCount bytes i * (1 + bytes.length) := by simp [hdeclared.count]
  · exact Nat.zero_le _

/-- Symbols without names are all gone through. -/
theorem le_turns_of_unnamed (hlength : bytes.length < 2 ^ 63) {table : SymbolTable}
    (hstrs : table.strs = []) (hname : name ≠ []) {count : ℕ}
    (hfits : ∀ n < count, n * table.entsize < 2 ^ 64 ∧ table.at n + 4 < 2 ^ 64) :
    count ≤ Exec.turns (symbolTurn bytes name table) (symbolCost bytes table) (List.range count) () := by
  have hother (n : ℕ) : nameOf bytes table n ≠ some name := by
    intro hfound
    have hshort := length_nameOf hfound
    rw [hstrs, List.length_nil, Nat.le_zero, List.length_eq_zero_iff] at hshort
    exact hname hshort
  have htotal : Exec.wp (Exec.each (symbolTurn bytes name table) (List.range count))
      (fun _ _ => True) (fun _ _ => False) False () := by
    apply Exec.wp_each_range (fun _ _ => True) trivial
    intro n hn _ _
    rw [symbolTurn_eq hlength (hfits n hn).1 (hfits n hn).2, if_neg (hother n)]
    trivial
  obtain ⟨⟨⟩, after, hrun, -⟩ := htotal.exists_ok
  calc count = ((List.range count).map fun _ => 1).sum := by simp
    _ ≤ Exec.turns (symbolTurn bytes name table) (symbolCost bytes table) (List.range count) () :=
        Exec.sum_le_turns (fun n _ _ _ _ => Nat.le_add_right 1 _) hrun

/-- The turns the sections declare: one for each header there is room for, and one for
each symbol and for each byte of its name. -/
def declaredTurns (bytes : List Byte) : ℕ :=
  ((List.range (min (tableOf bytes).shnum (bytes.length / shdrLen + 2))).map
    fun i => 1 + symbolCount bytes i * (1 + bytes.length)).sum

theorem findTurns_le (hlength : bytes.length < 2 ^ 63) (name : List Byte) :
    findTurns bytes name ≤ declaredTurns bytes := by
  rw [findTurns, sectionTable_eq]
  split
  on_goal 2 => exact Nat.zero_le _
  rename_i h after hrun
  split at hrun
  on_goal 2 => cases hrun
  cases hrun
  split
  · exact Nat.zero_le _
  rename_i hlong
  have hbound (i : ℕ) (state last : Unit)
      (hturn : (sectionTurn bytes name (tableOf bytes) i).run state = .ok ⟨⟩ last) :
      i < bytes.length / shdrLen + 1 := by
    obtain ⟨found, middle, htable, -⟩ := Exec.run_bind_eq_ok.mp hturn
    have hkind := (symbolTable_ok hlength htable).1
    exact entry_lt (by decide) (not_lt.mp hlong) ((Nat.le_add_right _ 8).trans hkind)
  exact Exec.turns_range_le hbound (fun i _ _ => sectionCost_le hlength i) ()

end Reading

end Baonix.Host.Elf
