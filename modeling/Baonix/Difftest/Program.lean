import Baonix.Core.Bus
import Baonix.Difftest.Gen

/-!
# Programs

`program`: the prologue and a body of chunks are laid out, the control transfers resolved
to offsets, and everything put into the image of one segment.
-/

namespace Baonix.Difftest

open Baonix.LittleEndian
open Window (overwrite)

/-! ## The fixed parts -/

def exitStub : List Ins :=
  [.w (uType 0x17 5 (u32 (tohostOff >>> 12))),
    .w (iType 0x13 0 6 0 1),
    .w (sType 0x23 3 5 6 0),
    .w (jType 0 0)]

/-- The loads of `x1` to `x31` from the table, through `x31`. -/
def tableLoads : List Ins :=
  (List.range' 1 31).map fun n => .w (iType 0x03 3 n 31 (u32 (8 * (n - 1))))

/-- The instructions of the prologue, the table lying at a distance of a page and `delta`
from the fourth. -/
def prologueCode (delta : ℤ) : List Ins :=
  [.w (uType 0x17 5 0),
    .w (iType 0x13 0 5 5 (BitVec.ofInt 32 (-entryOff))),
    .w (iType 0x73 1 0 5 0x305),
    .w (uType 0x17 31 1),
    .w (iType 0x13 0 31 31 (BitVec.ofInt 32 delta))] ++ tableLoads

/-- Where the fourth instruction of the prologue lies. -/
def tableBase : ℕ := entryOff + 4 * 3

def prologue : Gen (List Ins) := do
  let delta : ℤ := tableOff - (tableBase + 0x1000)
  ensure (-2048 ≤ delta ∧ delta ≤ 2047)
  pure (prologueCode delta)

/-! ## The body -/

/-- `CHUNKS`. -/
def chunkCount : ℕ := 48

def budget : ℕ := codeLimit - 64

/-- The chunks of the body, of which so many are left. -/
def genChunks (fuel : ℕ) : ℕ → ℕ → Gen (List Chunk)
  | 0, _ => pure []
  | left + 1, off => do
      let c ← genChunk fuel
      ensure (c.len ≤ maxChunk)
      if off + c.len > budget then pure []
      else do
        let rest ← genChunks fuel left (off + c.len)
        pure (c :: rest)

/-- The offset of each chunk. -/
def offsets (off : ℕ) : List Chunk → List ℕ
  | [] => []
  | c :: rest => off :: offsets (off + c.len) rest

/-- `offs[t] - here`. -/
def distance (offs : List ℕ) (here t : ℕ) : Gen ℕ :=
  match offs[t]? with
  | some target => if target < here then Exec.panic else pure (target - here)
  | none => Exec.panic

/-- `d as i32`. -/
def i32 (d : ℕ) : ℤ := (u32 d).toInt

def cBranchWord (ne : Bool) (rs1 : ℕ) (d : BitVec 32) : BitVec 16 :=
  (if ne then 0b111 else 0b110 : BitVec 16) <<< 13 ||| bits d 8 1 <<< 12 ||| bits d 3 0x3 <<< 10 |||
    u16 (rs1 - 8) <<< 7 ||| bits d 6 0x3 <<< 5 ||| bits d 1 0x3 <<< 3 ||| bits d 5 1 <<< 2 ||| 0b01

def cJWord (d : BitVec 32) : BitVec 16 :=
  (0b101 : BitVec 16) <<< 13 ||| bits d 11 1 <<< 12 ||| bits d 4 1 <<< 11 ||| bits d 8 0x3 <<< 9 |||
    bits d 10 1 <<< 8 ||| bits d 6 1 <<< 7 ||| bits d 7 1 <<< 6 ||| bits d 1 0x7 <<< 3 |||
    bits d 5 1 <<< 2 ||| 0b01

def cJrWord (link : Bool) (rt : ℕ) : BitVec 16 :=
  (if link then 0x9002 else 0x8002 : BitVec 16) ||| u16 rt <<< 7

/-- The instructions of chunk `i`, which lies at `here`. -/
def resolve (offs : List ℕ) (last i here : ℕ) : Chunk → Gen (List Ins)
  | .plain code => pure code
  | .branch f3 rs1 rs2 skip => do
      let d ← distance offs here (min (i + skip) last)
      pure [.w (bType f3 rs1 rs2 (u32 d))]
  | .jal rd skip => do
      let d ← distance offs here (min (i + skip) last)
      pure [.w (jType rd (u32 d))]
  | .jalr rt rd skip => do
      let d ← distance offs here (min (i + skip) last)
      let d1 := max (-2048) (min (i32 d) 2047)
      let d2 := i32 d - d1
      ensure (-2048 ≤ d2 ∧ d2 ≤ 2047)
      pure [.w (uType 0x17 rt 0), .w (iType 0x13 0 rt rt (BitVec.ofInt 32 d1)),
        .w (iType 0x67 0 rd rt (BitVec.ofInt 32 d2))]
  | .cBranch ne rs1 skip => do
      let d ← distance offs here (min (i + skip) last)
      ensure ((u32 d).toNat < 256)
      pure [.c (cBranchWord ne rs1 (u32 d))]
  | .cJ skip => do
      let d ← distance offs here (min (i + skip) last)
      ensure ((u32 d).toNat < 2048)
      pure [.c (cJWord (u32 d))]
  | .cJr rt link skip => do
      let d ← distance offs here (min (i + skip) last)
      ensure (-2048 ≤ i32 d ∧ i32 d ≤ 2047)
      pure [.w (uType 0x17 rt 0), .w (iType 0x13 0 rt rt (u32 d)), .c (cJrWord link rt)]

/-- The instructions of the chunks from chunk `i` on. -/
def resolveAll (offs : List ℕ) (last : ℕ) : ℕ → List Chunk → Gen (List Ins)
  | _, [] => pure []
  | i, c :: rest => do
      let here ← match offs[i]? with
        | some here => pure here
        | none => Exec.panic
      let code ← resolve offs last i here c
      let following ← resolveAll offs last (i + 1) rest
      pure (code ++ following)

/-! ## The image -/

def interesting : List (BitVec 64) :=
  [0, 1, BitVec.allOnes 64, 1 <<< 63, BitVec.intMax 64, 0xFFFFFFFF, 0x80000000,
    0xFFFFFFFF80000000, 63, 32, 0x00000000000000FF, 0xAAAAAAAA55555555]

/-- So many draws. -/
def times {Item : Type} (draw : Gen Item) : ℕ → Gen (List Item)
  | 0 => pure []
  | n + 1 => do
      let x ← draw
      let rest ← times draw n
      pure (x :: rest)

def seedValue : Gen (BitVec 64) := do
  if (← below 3) = 0 then pick interesting else nextU64

def seedTable : Gen (List (BitVec 64)) := times seedValue 31

def scratchWords : List (BitVec 64) := [0, BitVec.allOnes 64, 0x8000800080008000]

def scratchWord : Gen (BitVec 64) := do
  if (← below 4) = 0 then pick scratchWords else nextU64

/-- `image[o..o + bytes.len()].copy_from_slice(bytes)`. -/
def copyFromSlice (image : List Byte) (o : ℕ) (bytes : List Byte) : Gen (List Byte) := do
  ensure (o + bytes.length ≤ image.length)
  pure (overwrite image o bytes)

/-- Random words at the offsets. -/
def fillScratch (image : List Byte) : List ℕ → Gen (List Byte)
  | [] => pure image
  | o :: rest => do
      let w ← scratchWord
      let image ← copyFromSlice image o (toBytes 8 w.toNat)
      fillScratch image rest

def Ins.bytes (ins : Ins) : List Byte := (toBytes 4 ins.word.toNat).take ins.size

def addressOf (o : ℕ) : BitVec 64 := BitVec.ofNat 64 (Core.ramBase + o)

/-- Writes instructions one after the other, and lists their addresses. -/
def put (image : List Byte) (o : ℕ) : List Ins → Gen (List Byte × List (BitVec 64))
  | [] => pure (image, [])
  | ins :: rest => do
      let image ← copyFromSlice image o ins.bytes
      let (image, listed) ← put image (o + ins.size) rest
      pure (image, addressOf o :: listed)

/-- Writes the values of the table one after the other. -/
def putTable (image : List Byte) (o : ℕ) : List (BitVec 64) → Gen (List Byte)
  | [] => pure image
  | val :: rest => do
      let image ← copyFromSlice image o (toBytes 8 val.toNat)
      putTable image (o + 8) rest

structure Program where
  seed : BitVec 64
  image : List Byte
  bodyStart : BitVec 64
  ecallPc : BitVec 64
  bodyLen : ℕ
  /-- The addresses of the listing, in order. -/
  listing : List (BitVec 64)

def imageLen : ℕ := scratchOff + Proto.pageSize

/-- Puts the parts together. -/
def assemble (seed : BitVec 64) (table : List (BitVec 64)) (pro body : List Ins)
    (bodyStartOff ecallOff : ℕ) : Gen Program := do
  let image ← fillScratch (List.replicate imageLen 0)
    ((List.range 512).map fun k => scratchOff + 8 * k)
  let (image, stub) ← put image exitOff exitStub
  let (image, first) ← put image entryOff pro
  let (image, listed) ← put image bodyStartOff body
  let image ← putTable image tableOff table
  pure
    { seed := seed
      image := image
      bodyStart := addressOf bodyStartOff
      ecallPc := addressOf ecallOff
      bodyLen := body.length
      listing := (stub ++ first ++ listed).mergeSort (fun a b => a.toNat ≤ b.toNat) }

/-- `program`, from the random numbers of the seed. -/
def program (fuel : ℕ) (seed : BitVec 64) : Gen Program := do
  let table ← seedTable
  let pro ← prologue
  let bodyStartOff := entryOff + codeLen pro
  let chunks ← genChunks fuel chunkCount bodyStartOff
  let chunks := chunks ++ [.plain [.w ecallWord]]
  let last := chunks.length - 1
  let offs := offsets bodyStartOff chunks
  let ecallOff ← match offs[last]? with
    | some off => pure off
    | none => Exec.panic
  let body ← resolveAll offs last 0 chunks
  assemble seed table pro body bodyStartOff ecallOff

end Baonix.Difftest
