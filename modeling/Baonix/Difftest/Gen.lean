import Baonix.Lib.Exec
import Baonix.Lib.LittleEndian
import Baonix.Lib.Window

/-!
# The generator of differential programs

The encoders, the random numbers and the chunks of `rv64_difftest::gen`, without the
source text that each instruction carries for reports.  A `while` loop that draws again
takes a number of turns, and a generator that has not come to its end by then is starved;
an assertion that fires is a panic.
-/

namespace Baonix.Difftest

open Baonix.LittleEndian

def exitOff : ℕ := 0x0000
def entryOff : ℕ := 0x0040
def tohostOff : ℕ := 0x1000
def tableOff : ℕ := 0x1100
def scratchOff : ℕ := 0x2000
def codeLimit : ℕ := 0x1000

/-- `ECALL`. -/
def ecallWord : BitVec 32 := 0x00000073

/-! ## Encoders -/

/-- `rd as u32`. -/
def u32 (n : ℕ) : BitVec 32 := BitVec.ofNat 32 n

/-- `rd as u16`. -/
def u16 (n : ℕ) : BitVec 16 := BitVec.ofNat 16 n

def rType (op f3 f7 : BitVec 32) (rd rs1 rs2 : ℕ) : BitVec 32 :=
  op ||| u32 rd <<< 7 ||| f3 <<< 12 ||| u32 rs1 <<< 15 ||| u32 rs2 <<< 20 ||| f7 <<< 25

def iType (op f3 : BitVec 32) (rd rs1 : ℕ) (imm : BitVec 32) : BitVec 32 :=
  op ||| u32 rd <<< 7 ||| f3 <<< 12 ||| u32 rs1 <<< 15 ||| (imm &&& 0xFFF) <<< 20

def sType (op f3 : BitVec 32) (rs1 rs2 : ℕ) (imm : BitVec 32) : BitVec 32 :=
  let imm := imm &&& 0xFFF
  op ||| (imm &&& 0x1F) <<< 7 ||| f3 <<< 12 ||| u32 rs1 <<< 15 ||| u32 rs2 <<< 20 |||
    (imm >>> 5) <<< 25

def bType (f3 : BitVec 32) (rs1 rs2 : ℕ) (i : BitVec 32) : BitVec 32 :=
  (0x63 : BitVec 32) ||| ((i >>> 11) &&& 1) <<< 7 ||| ((i >>> 1) &&& 0xF) <<< 8 ||| f3 <<< 12 |||
    u32 rs1 <<< 15 ||| u32 rs2 <<< 20 ||| ((i >>> 5) &&& 0x3F) <<< 25 ||| ((i >>> 12) &&& 1) <<< 31

def uType (op : BitVec 32) (rd : ℕ) (imm : BitVec 32) : BitVec 32 :=
  op ||| u32 rd <<< 7 ||| (imm &&& 0xFFFFF) <<< 12

def jType (rd : ℕ) (i : BitVec 32) : BitVec 32 :=
  (0x6F : BitVec 32) ||| u32 rd <<< 7 ||| ((i >>> 12) &&& 0xFF) <<< 12 |||
    ((i >>> 11) &&& 1) <<< 20 ||| ((i >>> 1) &&& 0x3FF) <<< 21 ||| ((i >>> 20) &&& 1) <<< 31

/-- `(i >> low) as u16 & mask`. -/
def bits (i : BitVec 32) (low : ℕ) (mask : BitVec 16) : BitVec 16 :=
  (i >>> low).setWidth 16 &&& mask

def ci (f3 op : BitVec 16) (rd : ℕ) (imm : BitVec 32) : BitVec 16 :=
  let i := imm &&& 0x3F
  f3 <<< 13 ||| (i >>> 5).setWidth 16 <<< 12 ||| u16 rd <<< 7 |||
    (i &&& 0x1F).setWidth 16 <<< 2 ||| op

def cbImm (f2 : BitVec 16) (rd : ℕ) (imm : BitVec 32) : BitVec 16 :=
  let i := imm &&& 0x3F
  (0b100 : BitVec 16) <<< 13 ||| (i >>> 5).setWidth 16 <<< 12 ||| f2 <<< 10 |||
    u16 (rd - 8) <<< 7 ||| (i &&& 0x1F).setWidth 16 <<< 2 ||| 0b01

def ca (w f2 : BitVec 16) (rd rs2 : ℕ) : BitVec 16 :=
  (0b100 : BitVec 16) <<< 13 ||| w <<< 12 ||| (0b11 : BitVec 16) <<< 10 ||| u16 (rd - 8) <<< 7 |||
    f2 <<< 5 ||| u16 (rs2 - 8) <<< 2 ||| 0b01

/-! ## Random numbers -/

/-- The state of the xorshift generator. -/
abbrev Rng := BitVec 64

def Rng.new (seed : BitVec 64) : Rng := seed * 0x9E3779B97F4A7C15 ^^^ 0xD1B54A32D192ED03

inductive Starved
  | starved

abbrev Gen := Exec Starved Rng

def nextU64 : Gen (BitVec 64) := do
  let x ← Exec.read
  let x := x ^^^ x <<< 13
  let x := x ^^^ x >>> 7
  let x := x ^^^ x <<< 17
  Exec.update fun _ => x
  pure x

/-- `assert!`. -/
def ensure (condition : Prop) [Decidable condition] : Gen PUnit :=
  if condition then pure ⟨⟩ else Exec.panic

def below (n : ℕ) : Gen ℕ := do
  let x ← nextU64
  ensure (n ≠ 0)
  pure (x.toNat % n)

def pick {Item : Type} (xs : List Item) : Gen Item := do
  let i ← below xs.length
  match xs[i]? with
  | some x => pure x
  | none => Exec.panic

def reg : Gen ℕ := below 32

def nzreg : Gen ℕ := do
  let r ← below 31
  pure (1 + r)

def creg : Gen ℕ := do
  let r ← below 8
  pure (8 + r)

/-- `let mut x = draw; while bad(x) { x = draw }`. -/
def redraw {Item : Type} (draw : Gen Item) (bad : Item → Prop) [DecidablePred bad] :
    ℕ → Gen Item
  | 0 => Exec.raise .starved
  | fuel + 1 => do
      let x ← draw
      if bad x then redraw draw bad fuel else pure x

/-- `rng.below(2) == 0`. -/
def coin : Gen Bool := do
  let n ← below 2
  pure (n == 0)

/-- A sign-extended immediate of twelve bits: `(rng.next_u64() as i32) >> 20`. -/
def imm12 : Gen (BitVec 32) := do
  let x ← nextU64
  pure ((x.setWidth 32).sshiftRight 20)

def imm6 : Gen (BitVec 32) := do
  let n ← below 64
  pure ((u32 n <<< 26).sshiftRight 26)

def nzImm6 (fuel : ℕ) : Gen (BitVec 32) := redraw imm6 (· = 0) fuel

/-! ## Chunks -/

structure Ins where
  size : ℕ
  word : BitVec 32

def Ins.w (word : BitVec 32) : Ins := ⟨4, word⟩

def Ins.c (half : BitVec 16) : Ins := ⟨2, half.setWidth 32⟩

inductive Chunk
  | plain (code : List Ins)
  | branch (f3 : BitVec 32) (rs1 rs2 skip : ℕ)
  | jal (rd skip : ℕ)
  | jalr (rt rd skip : ℕ)
  | cBranch (ne : Bool) (rs1 skip : ℕ)
  | cJ (skip : ℕ)
  | cJr (rt : ℕ) (link : Bool) (skip : ℕ)

def codeLen (code : List Ins) : ℕ := (code.map Ins.size).sum

def Chunk.len : Chunk → ℕ
  | .plain code => codeLen code
  | .branch .. | .jal .. => 4
  | .jalr .. => 12
  | .cBranch .. | .cJ .. => 2
  | .cJr .. => 10

def maxChunk : ℕ := 24

def maxSkip : ℕ := 6

def skip : Gen ℕ := do
  let n ← below maxSkip
  pure (1 + n)

/-! ### Memory operands -/

/-- `WINDOW`. -/
def windowMask : BitVec 32 := 0xFF

/-- The instructions of `scratch_addr_in`. -/
def scratchCode (rt ru rs align : ℕ) : List Ins :=
  [.w (uType 0x17 rt 2),
    .w (iType 0x13 7 rt rt (BitVec.ofInt 32 (-2048))),
    .w (iType 0x13 7 ru rs (windowMask &&& ~~~(u32 align - 1))),
    .w (rType 0x33 0 0 rt rt ru)]

def scratchAddrIn (fuel align rt : ℕ) : Gen (List Ins) := do
  ensure (rt ≠ 0)
  let ru ← redraw nzreg (· = rt) fuel
  let rs ← reg
  pure (scratchCode rt ru rs align)

/-- The register the address is left in, and the code. -/
def scratchAddr (fuel align : ℕ) : Gen (ℕ × List Ins) := do
  let rt ← nzreg
  let code ← scratchAddrIn fuel align rt
  pure (rt, code)

/-! ### The kinds -/

def ops : List (BitVec 32 × BitVec 32) :=
  [(0, 0x00), (0, 0x20), (1, 0x00), (2, 0x00), (3, 0x00), (4, 0x00), (5, 0x00), (5, 0x20),
    (6, 0x00), (7, 0x00)]

def genOp : Gen Chunk := do
  let (f3, f7) ← pick ops
  let rd ← reg
  let a ← reg
  let b ← reg
  pure (.plain [.w (rType 0x33 f3 f7 rd a b)])

def ops32 : List (BitVec 32 × BitVec 32) :=
  [(0, 0x00), (0, 0x20), (1, 0x00), (5, 0x00), (5, 0x20)]

def genOp32 : Gen Chunk := do
  let (f3, f7) ← pick ops32
  let rd ← reg
  let a ← reg
  let b ← reg
  pure (.plain [.w (rType 0x3B f3 f7 rd a b)])

/-- The shifts by an immediate of fewer than `width` bits. -/
def genShift (op : BitVec 32) (width rd a : ℕ) : Gen Chunk := do
  let shamt ← below width
  let arith := !(← coin)
  let imm := if arith then u32 shamt ||| 0x400 else u32 shamt
  let left ← coin
  let f3 := if left && !arith then 1 else 5
  pure (.plain [.w (iType op f3 rd a imm)])

def opImms : List (BitVec 32) := [0, 2, 3, 4, 6, 7]

def genOpImm : Gen Chunk := do
  let rd ← reg
  let a ← reg
  if (← below 4) = 0 then genShift 0x13 64 rd a
  else do
    let f3 ← pick opImms
    let imm ← imm12
    pure (.plain [.w (iType 0x13 f3 rd a imm)])

def genOpImm32 : Gen Chunk := do
  let rd ← reg
  let a ← reg
  if ← coin then genShift 0x1B 32 rd a
  else do
    let imm ← imm12
    pure (.plain [.w (iType 0x1B 0 rd a imm)])

def genUpper : Gen Chunk := do
  let rd ← reg
  let x ← nextU64
  let imm := (x &&& 0xFFFFF).setWidth 32
  if ← coin then pure (.plain [.w (uType 0x37 rd imm)])
  else pure (.plain [.w (uType 0x17 rd (imm &&& 1))])

def muls64 : List (BitVec 32) := [0, 1, 2, 3, 4, 5, 6, 7]

def muls32 : List (BitVec 32) := [0, 4, 5, 6, 7]

def genMul : Gen Chunk := do
  let rd ← reg
  let a ← reg
  let b ← reg
  if (← below 3) = 0 then do
    let f3 ← pick muls32
    pure (.plain [.w (rType 0x3B f3 0x01 rd a b)])
  else do
    let f3 ← pick muls64
    pure (.plain [.w (rType 0x33 f3 0x01 rd a b)])

/-- The widths are in bytes. -/
def loads : List (BitVec 32 × ℕ) := [(0, 1), (1, 2), (2, 4), (3, 8), (4, 1), (5, 2), (6, 4)]

def stores : List (BitVec 32 × ℕ) := [(0, 1), (1, 2), (2, 4), (3, 8)]

def genMem (fuel : ℕ) : Gen Chunk := do
  if ← coin then do
    let (f3, w) ← pick loads
    let (rt, code) ← scratchAddr fuel w
    let rd ← reg
    pure (.plain (code ++ [.w (iType 0x03 f3 rd rt 0)]))
  else do
    let (f3, w) ← pick stores
    let (rt, code) ← scratchAddr fuel w
    let rs ← reg
    pure (.plain (code ++ [.w (sType 0x23 f3 rt rs 0)]))

/-- The width of an atomic operation and its `funct3`. -/
def atomicWidth : Gen (BitVec 32 × ℕ) := do
  if ← coin then pure (2, 4) else pure (3, 8)

def amos : List (BitVec 32) := [0x00, 0x01, 0x04, 0x08, 0x0C, 0x10, 0x14, 0x18, 0x1C]

def genAmo (fuel : ℕ) : Gen Chunk := do
  let op ← pick amos
  let (f3, w) ← atomicWidth
  let (rt, code) ← scratchAddr fuel w
  let rd ← reg
  let rs ← reg
  pure (.plain (code ++ [.w (rType 0x2F f3 (op <<< 2) rd rt rs)]))

def genLrSc (fuel : ℕ) : Gen Chunk := do
  let (f3, w) ← atomicWidth
  let (rt, code) ← scratchAddr fuel w
  let rd1 ← redraw reg (· = rt) fuel
  let rd2 ← reg
  let rs ← reg
  pure (.plain (code ++ [.w (rType 0x2F f3 (0x02 <<< 2) rd1 rt 0),
    .w (rType 0x2F f3 (0x03 <<< 2) rd2 rt rs)]))

def branches : List (BitVec 32) := [0, 1, 4, 5, 6, 7]

def genBranch : Gen Chunk := do
  let f3 ← pick branches
  let rs1 ← reg
  let rs2 ← reg
  let s ← skip
  pure (.branch f3 rs1 rs2 s)

def genJal : Gen Chunk := do
  let rd ← reg
  let s ← skip
  pure (.jal rd s)

def genJalr : Gen Chunk := do
  let rt ← nzreg
  let rd ← reg
  let s ← skip
  pure (.jalr rt rd s)

def genCBranch : Gen Chunk := do
  let eq ← coin
  let rs1 ← creg
  let s ← skip
  pure (.cBranch (!eq) rs1 s)

def genCJ : Gen Chunk := do
  let s ← skip
  pure (.cJ s)

def genCJr : Gen Chunk := do
  let rt ← nzreg
  let noLink ← coin
  let s ← skip
  pure (.cJr rt (!noLink) s)

/-! ### Compressed instructions -/

def cMoves (base : BitVec 16) (rd rs2 : ℕ) : BitVec 16 := base ||| u16 rd <<< 7 ||| u16 rs2 <<< 2

def cAddi4spn (rd : ℕ) (imm : BitVec 32) : BitVec 16 :=
  bits imm 4 0x3 <<< 11 ||| bits imm 6 0xF <<< 7 ||| bits imm 2 1 <<< 6 |||
    bits imm 3 1 <<< 5 ||| u16 (rd - 8) <<< 2

def cAddi16sp (u : BitVec 32) : BitVec 16 :=
  (0b011 : BitVec 16) <<< 13 ||| bits u 9 1 <<< 12 ||| (2 : BitVec 16) <<< 7 |||
    bits u 4 1 <<< 6 ||| bits u 6 1 <<< 5 ||| bits u 7 0x3 <<< 3 ||| bits u 5 1 <<< 2 ||| 0b01

def cLogic : List (BitVec 16) := [0b00, 0b01, 0b10, 0b11]

def cWords : List (BitVec 16) := [0b00, 0b01]

/-- `gen_compressed`. -/
def genCompressed (fuel : ℕ) : Gen Ins := do
  match ← below 16 with
  | 0 => do
      -- c.addi
      let rd ← nzreg
      let imm ← nzImm6 fuel
      pure (.c (ci 0b000 0b01 rd imm))
  | 1 => do
      -- c.addiw
      let rd ← nzreg
      let imm ← imm6
      pure (.c (ci 0b001 0b01 rd imm))
  | 2 => do
      -- c.li
      let rd ← nzreg
      let imm ← imm6
      pure (.c (ci 0b010 0b01 rd imm))
  | 3 => do
      -- c.lui
      let rd ← redraw nzreg (· = 2) fuel
      let imm ← nzImm6 fuel
      pure (.c (ci 0b011 0b01 rd imm))
  | 4 => do
      -- c.slli
      let rd ← nzreg
      let sh ← below 63
      pure (.c (ci 0b000 0b10 rd (u32 (1 + sh))))
  | 5 | 6 => do
      -- c.srli and c.srai
      let rd ← creg
      let sh ← below 63
      let logical ← coin
      pure (.c (cbImm (if logical then 0b00 else 0b01) rd (u32 (1 + sh))))
  | 7 => do
      -- c.andi
      let rd ← creg
      let imm ← imm6
      pure (.c (cbImm 0b10 rd imm))
  | 8 | 9 => do
      -- c.sub, c.xor, c.or and c.and
      let rd ← creg
      let rs2 ← creg
      let f2 ← pick cLogic
      pure (.c (ca 0 f2 rd rs2))
  | 10 => do
      -- c.subw and c.addw
      let rd ← creg
      let rs2 ← creg
      let f2 ← pick cWords
      pure (.c (ca 1 f2 rd rs2))
  | 11 | 12 => do
      -- c.mv
      let rd ← nzreg
      let rs2 ← nzreg
      pure (.c (cMoves 0x8002 rd rs2))
  | 13 => do
      -- c.addi4spn
      let rd ← creg
      let n ← below 255
      pure (.c (cAddi4spn rd (u32 (4 * (1 + n)))))
  | 14 => do
      -- c.addi16sp
      let n ← below 64
      let n := u32 n - 32
      let n := if n = 0 then 1 else n
      pure (.c (cAddi16sp (n * 16)))
  | _ => do
      -- c.add
      let rd ← nzreg
      let rs2 ← nzreg
      pure (.c (cMoves 0x9002 rd rs2))

/-- The offset of `c.ld` and `c.sd`, and of `c.lw` and `c.sw`. -/
def cOffset (wide : Bool) (off : BitVec 32) : BitVec 16 :=
  if wide then bits off 3 0x7 <<< 10 ||| bits off 6 0x3 <<< 5
  else bits off 3 0x7 <<< 10 ||| bits off 2 1 <<< 6 ||| bits off 6 1 <<< 5

def cMemF3 (wide store : Bool) : BitVec 16 :=
  match wide, store with
  | false, false => 0b010
  | true, false => 0b011
  | false, true => 0b110
  | true, true => 0b111

def cMem (wide store : Bool) (off : BitVec 32) (rt r : ℕ) : BitVec 16 :=
  cMemF3 wide store <<< 13 ||| cOffset wide off ||| u16 (rt - 8) <<< 7 ||| u16 (r - 8) <<< 2

def cStoreSp (wide : Bool) (off : BitVec 32) (rs2 : ℕ) : BitVec 16 :=
  if wide then
    (0b111 : BitVec 16) <<< 13 ||| bits off 3 0x7 <<< 10 ||| bits off 6 0x7 <<< 7 |||
      u16 rs2 <<< 2 ||| 0b10
  else
    (0b110 : BitVec 16) <<< 13 ||| bits off 2 0xF <<< 9 ||| bits off 6 0x3 <<< 7 |||
      u16 rs2 <<< 2 ||| 0b10

def cLoadSp (wide : Bool) (off : BitVec 32) (rd : ℕ) : BitVec 16 :=
  if wide then
    (0b011 : BitVec 16) <<< 13 ||| bits off 5 1 <<< 12 ||| u16 rd <<< 7 ||| bits off 3 0x3 <<< 5 |||
      bits off 6 0x7 <<< 2 ||| 0b10
  else
    (0b010 : BitVec 16) <<< 13 ||| bits off 5 1 <<< 12 ||| u16 rd <<< 7 ||| bits off 2 0x7 <<< 4 |||
      bits off 6 0x3 <<< 2 ||| 0b10

/-- The width, the scale and the largest offset of a compressed access. -/
def cScale (wide : Bool) (maxWide maxNarrow : ℕ) : ℕ × ℕ × ℕ :=
  if wide then (8, 8, maxWide) else (4, 4, maxNarrow)

/-- `gen_compressed_mem`. -/
def genCompressedMem (fuel : ℕ) : Gen (List Ins) := do
  if ← coin then do
    let wide ← coin
    let (w, scale, maxoff) := cScale wide 248 124
    let base ← creg
    let code ← scratchAddrIn fuel w base
    let k ← below (maxoff / scale + 1)
    let r ← creg
    let store ← coin
    pure (code ++ [.c (cMem wide store (u32 (scale * k)) base r)])
  else do
    let wide ← coin
    let (w, scale, maxoff) := cScale wide 504 252
    let code ← scratchAddrIn fuel w 2
    let k ← below (maxoff / scale + 1)
    if ← coin then do
      let rs2 ← reg
      pure (code ++ [.c (cStoreSp wide (u32 (scale * k)) rs2)])
    else do
      let rd ← nzreg
      pure (code ++ [.c (cLoadSp wide (u32 (scale * k)) rd)])

/-! ### The choice -/

inductive Kind
  | op
  | op32
  | opImm
  | opImm32
  | upper
  | mul
  | mem
  | amo
  | lrSc
  | branch
  | jal
  | jalr
  | compressed
  | cMem
  | cBranch
  | cJ
  | cJr
  | fence

def weights : List (ℕ × Kind) :=
  [(12, .op), (6, .op32), (12, .opImm), (6, .opImm32), (3, .upper), (10, .mul), (9, .mem),
    (5, .amo), (2, .lrSc), (7, .branch), (3, .jal), (2, .jalr), (12, .compressed), (6, .cMem),
    (4, .cBranch), (2, .cJ), (2, .cJr), (1, .fence)]

/-- The kind in whose share of the weights the number falls. -/
def kindAt (pick : ℕ) : List (ℕ × Kind) → Option Kind
  | [] => none
  | (w, kind) :: rest => if pick < w then some kind else kindAt (pick - w) rest

def genKind (fuel : ℕ) : Kind → Gen Chunk
  | .op => genOp
  | .op32 => genOp32
  | .opImm => genOpImm
  | .opImm32 => genOpImm32
  | .upper => genUpper
  | .mul => genMul
  | .mem => genMem fuel
  | .amo => genAmo fuel
  | .lrSc => genLrSc fuel
  | .branch => genBranch
  | .jal => genJal
  | .jalr => genJalr
  | .compressed => do
      let ins ← genCompressed fuel
      pure (.plain [ins])
  | .cMem => do
      let code ← genCompressedMem fuel
      pure (.plain code)
  | .cBranch => genCBranch
  | .cJ => genCJ
  | .cJr => genCJr
  | .fence => pure (.plain [.w 0x0FF0000F])

def genChunk (fuel : ℕ) : Gen Chunk := do
  let n ← below (weights.map Prod.fst).sum
  match kindAt n weights with
  | some kind => genKind fuel kind
  | none => Exec.panic

end Baonix.Difftest
