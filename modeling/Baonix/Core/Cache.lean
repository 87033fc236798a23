import Baonix.Core.Backing
import Baonix.Lib.Exec

/-!
# The page cache

`PageCache` keeps a bounded number of guest pages in frames, with CLOCK eviction,
dirty writeback and a fallback to a clean frame when a writeback is refused.
Indexing out of range and the `expect` on an all-pinned cache are panics.
-/

namespace Baonix.Core

open Baonix.LittleEndian Baonix.Proto

structure Stats where
  hits : ℕ
  misses : ℕ
  writebacks : ℕ
  evictions : ℕ
  declined : ℕ
  deriving DecidableEq

/-- `Frame` of the cache: a page held in memory. -/
structure CacheFrame where
  page : BitVec 32
  dirty : Bool
  referenced : Bool
  pinned : Bool
  data : Page

/-- `slot_of` holds `0` for a page that is not resident and otherwise its slot
plus one. -/
structure PageCache (B : Type) where
  backing : B
  frames : List CacheFrame
  slotOf : Fin ramPages → BitVec 16
  hand : ℕ
  capacity : ℕ
  stats : Stats

/-- `check_range`. -/
def checkRange (gpa len : ℕ) : Except Error Unit :=
  if gpa + len ≥ 2 ^ 64 then .error .outOfRange
  else if gpa < ramBase ∨ gpa + len > ramBase + ramSize then .error .outOfRange
  else .ok ()

/-! Pages, and the stretches of an access that lie in one page. -/

/-- `page_of`. -/
def pageOf (gpa : ℕ) : BitVec 32 :=
  ((BitVec.ofNat 64 gpa - BitVec.ofNat 64 ramBase) / BitVec.ofNat 64 pageSize).setWidth 32

/-- `data[off..off + n]`. -/
def slice (data : Page) (off n : ℕ) : List Byte := (data.bytes.drop off).take n

/-- `data[off..off + bytes.len()].copy_from_slice(bytes)`. -/
def splice (data : Page) (off : ℕ) (bytes : List Byte) : Page := fun index =>
  if off ≤ index then bytes[(index : ℕ) - off]?.getD (data index) else data index

/-- How much of an access of `left` bytes at `addr` lies in the page of `addr`. -/
def chunkLength (addr left : ℕ) : ℕ := min (pageSize - addr % pageSize) left

theorem chunkLength_pos (addr : ℕ) {left : ℕ} (hleft : left ≠ 0) : 0 < chunkLength addr left := by
  have hoff := Nat.mod_lt addr (by norm_num : 0 < pageSize)
  rw [chunkLength]
  omega

/-- The turns of the loops in `read_bytes` and `write_bytes`: the address and the
length of each. -/
def chunks (addr left : ℕ) : List (ℕ × ℕ) :=
  if _hleft : left = 0 then []
  else (addr, chunkLength addr left) ::
    chunks (addr + chunkLength addr left) (left - chunkLength addr left)
termination_by left
decreasing_by
  have hpos := chunkLength_pos addr _hleft
  omega

/-- What a store into a resident page does to its frame. -/
def CacheFrame.store (frame : CacheFrame) (off : ℕ) (bytes : List Byte) : CacheFrame :=
  { frame with data := splice frame.data off bytes, dirty := true }

namespace PageCache

variable {B : Type}

/-- `new`; `none` where its assertions fail. -/
def new (backing : B) (capacity : ℕ) : Option (PageCache B) :=
  if capacity ≥ 1 ∧ capacity ≤ ramPages then
    some ⟨backing, [], fun _ => 0, 0, capacity, ⟨0, 0, 0, 0, 0⟩⟩
  else none

def residentSlot (c : PageCache B) (page : BitVec 32) : Option ℕ :=
  if hpage : page.toNat < ramPages then
    let slot := c.slotOf ⟨page.toNat, hpage⟩
    if slot = 0 then none else some (slot.toNat - 1)
  else none

def setResident (c : PageCache B) (page : BitVec 32) (slot : ℕ) : PageCache B :=
  { c with
    slotOf := fun entry =>
      if entry.val = page.toNat then BitVec.ofNat 16 slot + 1 else c.slotOf entry }

def clearResident (c : PageCache B) (page : BitVec 32) : PageCache B :=
  { c with slotOf := fun entry => if entry.val = page.toNat then 0 else c.slotOf entry }

end PageCache

/-- What the methods of the cache compute in. -/
abbrev CacheM (B : Type) := Exec Error (PageCache B)

namespace PageCache

variable {B : Type}

/-- `self.frames[slot]`. -/
def frameAt (slot : ℕ) : CacheM B CacheFrame := do
  match (← Exec.read).frames[slot]? with
  | some frame => pure frame
  | none => Exec.panic

/-- An assignment to fields of `self.frames[slot]`. -/
def modifyFrame (slot : ℕ) (change : CacheFrame → CacheFrame) : CacheM B PUnit := do
  let frame ← frameAt slot
  Exec.update fun c => { c with frames := c.frames.set slot (change frame) }

def count (change : Stats → Stats) : CacheM B PUnit :=
  Exec.update fun c => { c with stats := change c.stats }

def setHand (hand : ℕ) : CacheM B PUnit :=
  Exec.update fun c => { c with hand := hand }

def pin (page : BitVec 32) : CacheM B PUnit := do
  match (← Exec.read).residentSlot page with
  | some slot => modifyFrame slot fun frame => { frame with pinned := true }
  | none => pure ()

/-! ## Choosing a victim -/

/-- The sweep of `select_victim`, with the number of turns left. -/
def sweep : ℕ → CacheM B (Option ℕ)
  | 0 => pure none
  | turns + 1 => do
      let c ← Exec.read
      setHand ((c.hand + 1) % c.frames.length)
      let frame ← frameAt c.hand
      if frame.pinned then sweep turns
      else if frame.referenced then do
        modifyFrame c.hand fun frame => { frame with referenced := false }
        sweep turns
      else pure (some c.hand)

def selectVictim : CacheM B ℕ := do
  let c ← Exec.read
  match ← sweep (2 * c.frames.length) with
  | some slot => pure slot
  | none =>
      match (← Exec.read).frames.findIdx? (! ·.pinned) with
      | some slot => pure slot
      | none => Exec.panic

/-- The loop of `select_clean_victim` over the distances from the hand that are
left, `hot` being the first referenced clean frame met so far. -/
def searchClean : List ℕ → Option ℕ → CacheM B (Option ℕ)
  | [], hot => do
      match hot with
      | some slot => setHand ((slot + 1) % (← Exec.read).frames.length)
      | none => pure ()
      pure hot
  | distance :: distances, hot => do
      let c ← Exec.read
      let slot := (c.hand + distance) % c.frames.length
      let frame ← frameAt slot
      if frame.pinned || frame.dirty then searchClean distances hot
      else if ! frame.referenced then do
        setHand ((slot + 1) % c.frames.length)
        pure (some slot)
      else searchClean distances (hot.or (some slot))

def selectCleanVictim : CacheM B (Option ℕ) := do
  searchClean (List.range (← Exec.read).frames.length) none

/-! ## Admitting a page -/

variable [MemBacking B]

/-- A call of the backing. -/
def onBacking {Value : Type} (operation : B → Value × B) : CacheM B Value :=
  Exec.call (·.backing) (fun c backing => { c with backing := backing }) operation

/-- `?` on a result. -/
def propagate {Value : Type} : Except Error Value → CacheM B Value
  | .ok value => pure value
  | .error err => Exec.raise err

/-- The frame to evict: the victim of CLOCK, written back if dirty, or a clean
frame if the backing refuses the writeback. -/
def evictable : CacheM B ℕ := do
  let victim ← selectVictim
  let frame ← frameAt victim
  if frame.dirty then
    match ← onBacking (MemBacking.writePage frame.page frame.data) with
    | .ok () => do
        count fun stats => { stats with writebacks := stats.writebacks + 1 }
        pure victim
    | .error err => do
        match ← selectCleanVictim with
        | some clean => do
            count fun stats => { stats with declined := stats.declined + 1 }
            pure clean
        | none => Exec.raise err
  else pure victim

def resident (page : BitVec 32) : CacheM B ℕ := do
  match (← Exec.read).residentSlot page with
  | some slot => do
      modifyFrame slot fun frame => { frame with referenced := true }
      count fun stats => { stats with hits := stats.hits + 1 }
      pure slot
  | none =>
      if page.toNat ≥ ramPages then Exec.raise .outOfRange
      else do
        count fun stats => { stats with misses := stats.misses + 1 }
        let data ← propagate (← onBacking (MemBacking.readPage page))
        let incoming : CacheFrame := ⟨page, false, true, false, data⟩
        let c ← Exec.read
        if c.frames.length < c.capacity then do
          Exec.update fun c =>
            { c with frames := c.frames ++ [incoming] }.setResident page c.frames.length
          pure c.frames.length
        else do
          let victim ← evictable
          count fun stats => { stats with evictions := stats.evictions + 1 }
          let outgoing ← frameAt victim
          Exec.update fun c =>
            { c.clearResident outgoing.page with
              frames := c.frames.set victim incoming }.setResident page victim
          pure victim

/-! ## Access -/

/-- The loop of `read_bytes` over the turns that are left. -/
def readChunks : List (ℕ × ℕ) → CacheM B (List Byte)
  | [] => pure []
  | (addr, n) :: turns => do
      let slot ← resident (pageOf addr)
      let frame ← frameAt slot
      let rest ← readChunks turns
      pure (slice frame.data (addr % pageSize) n ++ rest)

def readBytes (gpa : ℕ) (len : ℕ) : CacheM B (List Byte) := do
  propagate (checkRange gpa len)
  readChunks (chunks gpa len)

/-- The loop of `write_bytes` over the turns that are left, with the bytes that
are left. -/
def writeChunks : List (ℕ × ℕ) → List Byte → CacheM B PUnit
  | [], _ => pure ()
  | (addr, n) :: turns, bytes => do
      let slot ← resident (pageOf addr)
      modifyFrame slot (CacheFrame.store · (addr % pageSize) (bytes.take n))
      writeChunks turns (bytes.drop n)

def writeBytes (gpa : ℕ) (bytes : List Byte) : CacheM B PUnit := do
  propagate (checkRange gpa bytes.length)
  writeChunks (chunks gpa bytes.length) bytes

/-- The width of a sized access: `N` in `1..=8`. -/
abbrev Width := { width : ℕ // 1 ≤ width ∧ width ≤ 8 }

/-- The branch of `read_le` on whether the access fits one page. -/
def readSized (N : Width) (gpa : ℕ) : CacheM B (List Byte) :=
  if gpa % pageSize + N ≤ pageSize then do
    let slot ← resident (pageOf gpa)
    let frame ← frameAt slot
    pure (slice frame.data (gpa % pageSize) N)
  else readBytes gpa N

/-- `read_le`. -/
def readLe (N : Width) (gpa : ℕ) : CacheM B (BitVec 64) := do
  propagate (checkRange gpa N)
  let bytes ← readSized N gpa
  pure (BitVec.ofNat 64 (ofBytes bytes))

/-- `write_le`. -/
def writeLe (N : Width) (gpa : ℕ) (value : BitVec 64) : CacheM B PUnit := do
  propagate (checkRange gpa N)
  let bytes := (toBytes 8 value.toNat).take N
  let off := gpa % pageSize
  if off + N > pageSize then writeBytes gpa bytes
  else do
    let slot ← resident (pageOf gpa)
    modifyFrame slot (CacheFrame.store · off bytes)

/-- The loop of `flush`, over the slots that are left. -/
def flushFrames : List ℕ → CacheM B PUnit
  | [] => pure ()
  | slot :: slots => do
      let frame ← frameAt slot
      if frame.dirty then do
        propagate (← onBacking (MemBacking.writePage frame.page frame.data))
        modifyFrame slot fun frame => { frame with dirty := false }
        count fun stats => { stats with writebacks := stats.writebacks + 1 }
        flushFrames slots
      else flushFrames slots

def flush : CacheM B PUnit := do
  flushFrames (List.range (← Exec.read).frames.length)
  propagate (← onBacking MemBacking.flush)

end PageCache

end Baonix.Core
