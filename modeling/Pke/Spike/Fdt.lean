import Pke.Kernel.Printf

/-!
# The device tree: the code

`spike_interface/dts_parse.c`, and the two users of `fdt_scan`: `query_mem`
(`spike_interface/spike_memory.c`) and `query_htif`
(`spike_interface/spike_htif.c`), which `init_dtb` calls before the kernel
starts. The blob is read in place; its words are big-endian.

A scan has a bound on its steps, `fuel`: the code has none, and on a blob with a
length above `2 ^ 31` it can go backwards for ever.
-/

namespace Pke

open Lib

/-! ## Reading -/

/-- The word `*(uint32 *)a` of a little-endian machine. -/
def load32 (m : Mem) (a : Word) : BitVec 32 :=
  load8 m (a + 3) ++ load8 m (a + 2) ++ load8 m (a + 1) ++ load8 m a

def store32 (m : Mem) (a : Word) (w : BitVec 32) : Mem :=
  store8 (store8 (store8 (store8 m a (w.setWidth 8)) (a + 1) ((w >>> 8).setWidth 8))
    (a + 2) ((w >>> 16).setWidth 8)) (a + 3) ((w >>> 24).setWidth 8)

/-- `bswap` (`dts_parse.c` lines 11–15). -/
def bswap (x : BitVec 32) : BitVec 32 :=
  let y := (x &&& 0x00FF00FF) <<< 8 ||| (x &&& 0xFF00FF00) >>> 8
  (y &&& 0x0000FFFF) <<< 16 ||| (y &&& 0xFFFF0000) >>> 16

/-- `bswap(*a)`. -/
def cell (m : Mem) (a : Word) : BitVec 32 := bswap (load32 m a)

/-- `strcmp(s, lit)` with a string literal (`util/string.c` lines 47–56). -/
def strcmp (m : Mem) : Word → List (BitVec 8) → ℤ
  | s, [] => (load8 m s).toNat
  | s, c :: lit =>
    if load8 m s ≠ 0 ∧ load8 m s = c then strcmp m (s + 1) lit
    else (load8 m s).toNat - (c.toNat : ℤ)

/-- `strlen(s)` (`util/string.c` lines 41–45): without a NUL the loop goes round the
    address space for ever. -/
def strlen (m : Mem) (s : Word) : Option ℕ := (cstring m (2 ^ 64) s).map List.length

/-- The bytes of a string literal. -/
def literal (s : String) : List (BitVec 8) := s.toList.map ascii

/-! ## `fdt_scan` -/

def FDT_MAGIC : BitVec 32 := 0xd00dfeed
def FDT_VERSION : BitVec 32 := 17
def FDT_BEGIN_NODE : BitVec 32 := 1
def FDT_END_NODE : BitVec 32 := 2
def FDT_PROP : BitVec 32 := 3
def FDT_NOP : BitVec 32 := 4
def FDT_END : BitVec 32 := 9

/-- The structure `fdt_scan_node` without `parent`: the nodes above a node are listed behind
    it, the nearest first, and NULL is the empty list. -/
structure FdtScanNode where
  name : Word
  addressCells : BitVec 32
  sizeCells : BitVec 32

/-- The structure `fdt_scan_prop`. -/
structure FdtScanProp where
  node : List FdtScanNode
  name : Word
  value : Word
  len : BitVec 32

/-- The structure `fdt_cb`; `σ` is what `extra` points to and the variables that the
    callbacks set. They read memory and do not write to it. -/
structure FdtCb (σ : Type) where
  opened : Option (Mem → List FdtScanNode → Prog σ Halt Unit)
  prop : Option (Mem → FdtScanProp → Prog σ Halt Unit)
  done : Option (Mem → List FdtScanNode → Prog σ Halt Unit)
  close : Option (Mem → List FdtScanNode → Prog σ Halt (BitVec 32))

/-- Memory and what the callbacks work on. -/
structure Scan (σ : Type) where
  mem : Mem
  extra : σ

abbrev ScanM (σ : Type) := Prog (Scan σ) Halt

variable {σ α β : Type}

/-- A call `cb->f(a, cb->extra)`. -/
def callback (f : Mem → α → Prog σ Halt β) (a : α) : ScanM σ β := do
  let m ← Prog.gets Scan.mem
  Prog.zoom Scan.extra (fun s e => { s with extra := e }) (f m a)

/-- A call of `cb->open` or `cb->done`, which may be NULL. -/
def optional (f : Option (Mem → α → Prog σ Halt Unit)) (a : α) : ScanM σ Unit :=
  match f with
  | none => return
  | some f => callback f a

/-- `if (!last && node && cb->done) cb->done(node, cb->extra);`. -/
def callDone (cb : FdtCb σ) (last : Bool) (path : List FdtScanNode) : ScanM σ Unit :=
  if last = false ∧ path ≠ [] then optional cb.done path else return

/-- What a property says about the cells of its node, which is the first of the path. -/
def setCells (m : Mem) (name : Word) (value : BitVec 32) : List FdtScanNode → List FdtScanNode
  | [] => []
  | node :: parents =>
    let node := if strcmp m name (literal "#address-cells") = 0 then
      { node with addressCells := value } else node
    let node := if strcmp m name (literal "#size-cells") = 0 then
      { node with sizeCells := value } else node
    node :: parents

/-- `lex += 3 + (prop.len + 3) / 4;` with the `int` arithmetic of the code. -/
def behindProp (lex : Word) (len : BitVec 32) : Word :=
  lex + 4 * (3 + (len + 3).sdiv 4).signExtend 64

/-- `while (lex != lex_next) *lex++ = bswap(FDT_NOP);`. -/
def fillNop (lex lexNext : Word) : ScanM σ Unit := do
  let n := (lexNext - lex).toNat
  if n % 4 ≠ 0 then Prog.halt .spin
  else Prog.modify fun s => { s with
    mem := (List.range (n / 4)).foldl
      (fun m k => store32 m (lex + BitVec.ofNat 64 (4 * k)) (bswap FDT_NOP)) s.mem }

/-- `if (cb->close && cb->close(&child, cb->extra) == -1) …`. -/
def callClose (cb : FdtCb σ) (path : List FdtScanNode) (lex lexNext : Word) : ScanM σ Unit :=
  match cb.close with
  | none => return
  | some f => do
    let r ← callback f path
    if r = -1 then fillNop lex lexNext else return

/-- The cells a helper starts its child with; the name is set before it is read. -/
def defaultChild : FdtScanNode := ⟨0, 2, 1⟩

/-- The loop of `fdt_scan_helper` (`dts_parse.c` lines 17–72). `path` is `node` with its
    parents; the result is the pointer that is returned and the path with the cells that
    were set on the way. -/
def fdtScanHelper (cb : FdtCb σ) (strings : Word) :
    ℕ → Word → List FdtScanNode → FdtScanNode → Bool → ScanM σ (Word × List FdtScanNode)
  | 0, _, _, _, _ => Prog.halt .spin
  | fuel + 1, lex, path, child, last => do
    let m ← Prog.gets Scan.mem
    let token := cell m lex
    if token = FDT_NOP then fdtScanHelper cb strings fuel (lex + 4) path child last
    else if token = FDT_PROP then
      if last then Prog.halt (.assertion "!last")
      else
        let name := strings + (cell m (lex + 8)).setWidth 64
        let len := cell m (lex + 4)
        let path := setCells m name (cell m (lex + 12)) path
        match cb.prop with
        | none => Prog.halt .fault
        | some f => do
          callback f ⟨path, name, lex + 12, len⟩
          fdtScanHelper cb strings fuel (behindProp lex len) path child last
    else if token = FDT_BEGIN_NODE then do
      callDone cb last path
      let child := { child with name := lex + 4 }
      optional cb.opened (child :: path)
      match strlen m (lex + 4) with
      | none => Prog.halt .spin
      | some n => do
        let (lexNext, below) ← fdtScanHelper cb strings fuel
          (lex + 8 + BitVec.ofNat 64 (4 * (n / 4))) (child :: path) defaultChild false
        -- the cells that the node declared stay in `child`
        let child := below.headD child
        callClose cb (child :: path) lex lexNext
        fdtScanHelper cb strings fuel lexNext path child true
    else if token = FDT_END_NODE then do
      callDone cb last path
      return (lex + 4, path)
    else do
      callDone cb last path
      return (lex, path)

/-- `fdt_scan` (`dts_parse.c` lines 89–99). -/
def fdtScan (fuel : ℕ) (cb : FdtCb σ) (fdt : Word) : ScanM σ Unit := do
  let m ← Prog.gets Scan.mem
  if cell m fdt ≠ FDT_MAGIC ∨ FDT_VERSION < cell m (fdt + 24) then return
  else do
    let strings := fdt + (cell m (fdt + 12)).setWidth 64
    let lex := fdt + (cell m (fdt + 8)).setWidth 64
    let _ ← fdtScanHelper cb strings fuel lex [] defaultChild false

/-- The loop of `fdt_get_address` and of `fdt_get_size`: `n` more cells. -/
def getCells (m : Mem) : ℕ → Word → Word → Word × Word
  | 0, value, result => (value, result)
  | n + 1, value, result =>
    getCells m n (value + 4) (result <<< 32 + (cell m value).setWidth 64)

/-- `fdt_get_address` (`dts_parse.c` lines 74–80); a negative count is no cell. -/
def fdtGetAddress (m : Mem) (node : FdtScanNode) (value : Word) : Word × Word :=
  getCells m node.addressCells.toInt.toNat value 0

/-- `fdt_get_size` (`dts_parse.c` lines 82–87). -/
def fdtGetSize (m : Mem) (node : FdtScanNode) (value : Word) : Word × Word :=
  getCells m node.sizeCells.toInt.toNat value 0

/-! ## `query_mem` -/

/-- The structure `mem_scan`, and `g_mem_size`. -/
structure MemScan where
  memory : Bool
  regValue : Word
  regLen : BitVec 32
  gMemSize : Word

/-- `mem_open` (`spike_memory.c` lines 19–22). -/
def memOpen (_ : Mem) (_ : List FdtScanNode) : Prog MemScan Halt Unit :=
  Prog.modify fun e => { e with memory := false, regValue := 0, regLen := 0 }

/-- `mem_prop` (`spike_memory.c` lines 24–32). -/
def memProp (m : Mem) (prop : FdtScanProp) : Prog MemScan Halt Unit :=
  Prog.modify fun e =>
    if strcmp m prop.name (literal "device_type") = 0 ∧
        strcmp m prop.value (literal "memory") = 0 then { e with memory := true }
    else if strcmp m prop.name (literal "reg") = 0 then
      { e with regValue := prop.value, regLen := prop.len }
    else e

/-- The loop of `mem_done`. Every round that advances takes at least one of the `fuel - 1`
    words, so a loop that runs out of fuel does not advance. -/
def memDoneLoop (m : Mem) (self : Word) (parents : List FdtScanNode) (last : Word) :
    ℕ → Word → Prog MemScan Halt Word
  | 0, _ => Prog.halt .spin
  | fuel + 1, value =>
    if 0 < (last - value).toInt then
      match parents with
      | [] => Prog.halt .fault
      | parent :: _ => do
        let (value, base) := fdtGetAddress m parent value
        let (value, size) := fdtGetSize m parent value
        Prog.modify fun e =>
          if base ≤ self ∧ self ≤ base + size then { e with gMemSize := size } else e
        memDoneLoop m self parents last fuel value
    else return value

/-- `mem_done` (`spike_memory.c` lines 34–52), which is at the address `self`. -/
def memDone (self : Word) (m : Mem) (path : List FdtScanNode) : Prog MemScan Halt Unit := do
  let e ← Prog.gets id
  let words := e.regLen.sdiv 4
  let last := e.regValue + 4 * words.signExtend 64
  if e.memory = false then return
  else if e.regValue = 0 ∨ e.regLen.srem 4 ≠ 0 then
    Prog.halt (.assertion "scan->reg_value && scan->reg_len % 4 == 0")
  else do
    let value ← memDoneLoop m self path.tail last (words.toNat + 1) e.regValue
    if last ≠ value then Prog.halt (.assertion "end == value") else return

/-- The callbacks of `query_mem`. -/
def memCb (self : Word) : FdtCb MemScan where
  opened := some memOpen
  prop := some memProp
  done := some (memDone self)
  close := none

/-- `query_mem` (`spike_memory.c` lines 55–68). -/
def queryMem (fuel : ℕ) (self fdt : Word) : ScanM MemScan Unit := do
  Prog.modify fun s => { s with extra := { s.extra with gMemSize := 0 } }
  fdtScan fuel (memCb self) fdt
  let e ← Prog.gets Scan.extra
  if e.gMemSize = 0 then Prog.halt (.assertion "g_mem_size > 0") else return

/-! ## `query_htif` -/

/-- The structure `htif_scan`, and `htif`. -/
structure HtifScan where
  compat : Bool
  htif : Bool

/-- `htif_open` (`spike_htif.c` lines 27–30). -/
def htifOpen (_ : Mem) (_ : List FdtScanNode) : Prog HtifScan Halt Unit :=
  Prog.modify fun e => { e with compat := false }

/-- `htif_prop` (`spike_htif.c` lines 32–37). -/
def htifProp (m : Mem) (prop : FdtScanProp) : Prog HtifScan Halt Unit :=
  Prog.modify fun e =>
    if strcmp m prop.name (literal "compatible") = 0 ∧
        strcmp m prop.value (literal "ucb,htif0") = 0 then { e with compat := true }
    else e

/-- `htif_done` (`spike_htif.c` lines 39–44). -/
def htifDone (_ : Mem) (_ : List FdtScanNode) : Prog HtifScan Halt Unit :=
  Prog.modify fun e => if e.compat then { e with htif := true } else e

/-- The callbacks of `query_htif`. -/
def htifCb : FdtCb HtifScan where
  opened := some htifOpen
  prop := some htifProp
  done := some htifDone
  close := none

/-- `query_htif` (`spike_htif.c` lines 47–58). -/
def queryHtif (fuel : ℕ) (fdt : Word) : ScanM HtifScan Unit := fdtScan fuel htifCb fdt

end Pke
