import Pke.Spike.Collect

/-!
# What the kernel learns from the device tree

* `queryMem_eq`: on every device tree `query_mem` finds the size of the last memory range
  that contains the kernel, and stops the machine if there is none. The ranges are those
  of the nodes whose `device_type` is `memory`, in the order of the tree, read with the
  cell counts of their parents.
* `queryHtif_eq`: `query_htif` finds HTIF if and only if some node has it as the first of
  its compatible devices.

The cell counts are not quite those of the device tree format: see `Items.cells`.
-/

namespace Pke

open Lib

variable {m : Mem} {a self fdt : Word} {str : BitVec 32 → List (BitVec 8)} {items : Items}

/-! ## Numbers of several cells -/

/-- A number with one more byte behind it. -/
def addByte (r : Word) (b : BitVec 8) : Word := r <<< 8 + b.setWidth 64

/-- A number of several bytes, the first one the highest; it is cut to 64 bits. -/
def beNumber (v : List (BitVec 8)) : Word := v.foldl addByte 0

theorem append_toNat {n : ℕ} (x : BitVec n) (b : BitVec 8) :
    (x ++ b).toNat = 256 * x.toNat + b.toNat := by
  rw [BitVec.toNat_append, ← Nat.shiftLeft_add_eq_or_of_lt b.isLt, Nat.shiftLeft_eq, Nat.mul_comm]

/-- A cell is four more bytes. -/
theorem shift_cell (r : Word) (b₀ b₁ b₂ b₃ : BitVec 8) :
    r <<< 32 + (b₀ ++ b₁ ++ b₂ ++ b₃ : BitVec 32).setWidth 64 =
      [b₀, b₁, b₂, b₃].foldl addByte r := by
  apply BitVec.eq_of_toNat_eq
  simp only [List.foldl_cons, List.foldl_nil, addByte, BitVec.toNat_add, BitVec.toNat_shiftLeft,
    BitVec.toNat_setWidth, append_toNat, Nat.shiftLeft_eq]
  omega

/-- Reading `n` cells. -/
theorem getCells_eq {n : ℕ} {v l : List (BitVec 8)} (hv : v.length = 4 * n)
    (h : BytesAt m a (v ++ l)) (r : Word) :
    getCells m n a r = (a + BitVec.ofNat 64 (4 * n), v.foldl addByte r) := by
  induction n generalizing v a r with
  | zero =>
    obtain rfl := List.length_eq_zero_iff.mp hv
    simp [getCells]
  | succ n ih =>
    rcases v with _ | ⟨b₀, _ | ⟨b₁, _ | ⟨b₂, _ | ⟨b₃, v⟩⟩⟩⟩
    · simp at hv
    · simp at hv
      omega
    · simp at hv
      omega
    · simp at hv
      omega
    · have hcell : cell m a = b₀ ++ b₁ ++ b₂ ++ b₃ := by
        refine cell_of_bytesAt (l := v ++ l) ?_
        rw [be32_append]
        exact h
      have htail : BytesAt m (a + BitVec.ofNat 64 4) (v ++ l) :=
        (bytesAt_append.mp (show BytesAt m a ([b₀, b₁, b₂, b₃] ++ (v ++ l)) from h)).2
      rw [getCells, hcell, shift_cell, show a + 4 = a + BitVec.ofNat 64 4 from rfl,
        ih (by simp only [List.length_cons] at hv; omega) htail, add_ofNat_add,
        show 4 + 4 * n = 4 * (n + 1) by omega]
      simp only [List.foldl_cons, List.foldl_nil]

/-! ## Memory ranges -/

namespace Cells

/-- How many words a range takes; a negative count is no word. -/
def words (c : Cells) : ℕ := c.address.toInt.toNat + c.size.toInt.toNat

/-- The first `n` ranges in the value of a `reg` property: base and size. -/
def ranges (c : Cells) : ℕ → List (BitVec 8) → List (Word × Word)
  | 0, _ => []
  | n + 1, v =>
    (beNumber (v.take (4 * c.address.toInt.toNat)),
      beNumber ((v.drop (4 * c.address.toInt.toNat)).take (4 * c.size.toInt.toNat))) ::
      c.ranges n (v.drop (4 * c.words))

end Cells

/-- The range contains the address, as `mem_done` compares them. -/
def covers (self : Word) (r : Word × Word) : Bool := r.1 ≤ self ∧ self ≤ r.1 + r.2

/-- The size of the last range that contains the address, or 0. -/
def lastSize (self : Word) (rs : List (Word × Word)) : Word :=
  ((rs.filter (covers self)).getLast?.map Prod.snd).getD 0

theorem lastSize_concat (self : Word) (rs : List (Word × Word)) (r : Word × Word) :
    lastSize self (rs ++ [r]) = if covers self r then r.2 else lastSize self rs := by
  unfold lastSize
  rw [List.filter_append]
  by_cases hr : covers self r
  · simp [hr]
  · simp [hr]

/-- What `query_mem` looks for in a node. -/
structure MemInfo where
  isMemory : Bool
  reg : Option (List (BitVec 8))

/-- The ranges of a node with this record. -/
def MemInfo.ranges (i : MemInfo) : Option Cells → List (Word × Word)
  | none => []
  | some c => if i.isMemory then
      let v := i.reg.getD []
      c.ranges (v.length / (4 * c.words)) v
    else []

theorem MemInfo.ranges_of_not_memory {i : MemInfo} (h : i.isMemory = false) (own : Option Cells) :
    i.ranges own = [] := by
  cases own <;> simp [MemInfo.ranges, h]

/-- The memory ranges of a tree, as a collector. -/
def memCollector : Collector MemInfo (List (Word × Word)) where
  init := ⟨false, none⟩
  add name v i :=
    if name = literal "device_type" ∧ cstr v = literal "memory" then { i with isMemory := true }
    else if name = literal "reg" then { i with reg := some v }
    else i
  finish own i rs := rs ++ i.ranges own

/-- A memory node that the code can read: it is not the root, and its `reg` is a list of
    ranges with the cell counts of its parent. -/
def MemReadable (own : Option Cells) (i : MemInfo) : Prop :=
  i.isMemory = true → ∃ c v, own = some c ∧ i.reg = some v ∧ 0 < c.words ∧ 4 * c.words ∣ v.length

/-- The memory ranges of a device tree. -/
def Items.memRanges (str : BitVec 32 → List (BitVec 8)) (items : Items) : List (Word × Word) :=
  items.collect memCollector str none Cells.default []

/-! ## `mem_done` -/

/-- The state of `query_mem` after the ranges `rs` were seen. -/
def MemRes (self : Word) (e : MemScan) (rs : List (Word × Word)) : Prop :=
  e.gMemSize = lastSize self rs

/-- The state in a node with the record `i` so far. -/
structure MemRec (m : Mem) (x : Word) (e : MemScan) (i : MemInfo) (rs : List (Word × Word)) :
    Prop where
  size : MemRes x e rs
  memory : e.memory = i.isMemory
  reg : ∀ v, i.reg = some v → BytesAt m e.regValue v ∧ e.regLen = BitVec.ofNat 32 v.length ∧
    v.length + 3 < 2 ^ 31 ∧ e.regValue ≠ 0

theorem getCells_take {n : ℕ} {v : List (BitVec 8)} (hv : 4 * n ≤ v.length)
    (h : BytesAt m a v) : getCells m n a 0 =
      (a + BitVec.ofNat 64 (4 * n), beNumber (v.take (4 * n))) := by
  refine getCells_eq (l := v.drop (4 * n)) (List.length_take_of_le hv) ?_ 0
  rwa [List.take_append_drop]

theorem BytesAt.drop {n : ℕ} {v : List (BitVec 8)} (h : BytesAt m a v) (hn : n ≤ v.length) :
    BytesAt m (a + BitVec.ofNat 64 n) (v.drop n) := by
  rw [← List.take_append_drop n v, bytesAt_append, List.length_take_of_le hn] at h
  exact h.2

/-- There are words left. -/
theorem words_left {n : ℕ} (hpos : 0 < n) (hn : n < 2 ^ 31) :
    0 < (a + BitVec.ofNat 64 n - a).toInt := by
  have hsub : a + BitVec.ofNat 64 n - a = BitVec.ofNat 64 n := by
    rw [BitVec.add_comm, BitVec.add_sub_cancel]
  have hN : (BitVec.ofNat 64 n).toNat = n := by
    rw [BitVec.toNat_ofNat]
    omega
  rw [hsub, BitVec.toInt_eq_toNat_of_lt (by omega), hN]
  omega

/-- One round of the loop. -/
theorem memDoneLoop_round {node : FdtScanNode} {parents : List FdtScanNode} {fuel : ℕ}
    {v : List (BitVec 8)} {last : Word} {e : MemScan} (hv : 4 * node.cells.words ≤ v.length)
    (hleft : 0 < (last - a).toInt) (hbytes : BytesAt m a v) :
    memDoneLoop m self (node :: parents) last (fuel + 1) a e =
      memDoneLoop m self (node :: parents) last fuel
        (a + BitVec.ofNat 64 (4 * node.cells.words))
        (let base := beNumber (v.take (4 * node.cells.address.toInt.toNat))
         let size := beNumber ((v.drop (4 * node.cells.address.toInt.toNat)).take
          (4 * node.cells.size.toInt.toNat))
         if covers self (base, size) then { e with gMemSize := size } else e) := by
  unfold Cells.words at hv ⊢
  have haddr := getCells_take (n := node.addressCells.toInt.toNat)
    (show _ ≤ v.length by change 4 * (node.addressCells.toInt.toNat + _) ≤ _ at hv; omega) hbytes
  have hdrop := hbytes.drop (n := 4 * node.addressCells.toInt.toNat)
    (by change 4 * (node.addressCells.toInt.toNat + _) ≤ _ at hv; omega)
  have hsize := getCells_take (n := node.sizeCells.toInt.toNat)
    (show _ ≤ (v.drop (4 * node.addressCells.toInt.toNat)).length by
      change 4 * (node.addressCells.toInt.toNat + node.sizeCells.toInt.toNat) ≤ _ at hv
      rw [List.length_drop]
      omega) hdrop
  rw [memDoneLoop, if_pos hleft]
  simp only [fdtGetAddress, fdtGetSize, haddr, hsize]
  rw [Prog.bind_apply, add_ofNat_add, ← Nat.mul_add]
  simp only [Prog.modify_apply, covers, decide_eq_true_eq]
  rfl

/-- The loop of `mem_done` goes through the ranges. -/
theorem memDoneLoop_eq {node : FdtScanNode} (parents : List FdtScanNode) {n fuel : ℕ}
    {v : List (BitVec 8)} {last : Word} {e : MemScan} {rs : List (Word × Word)}
    (hw : 0 < node.cells.words) (hv : v.length = 4 * node.cells.words * n)
    (hlen : v.length < 2 ^ 31) (hlast : last = a + BitVec.ofNat 64 v.length)
    (hfuel : n < fuel) (hbytes : BytesAt m a v) (hres : MemRes self e rs) :
    ∃ e', memDoneLoop m self (node :: parents) last fuel a e = .ret last e' ∧
      MemRes self e' (rs ++ node.cells.ranges n v) := by
  induction n generalizing a v fuel e rs with
  | zero =>
    obtain rfl := List.length_eq_zero_iff.mp (hv.trans (Nat.mul_zero _))
    obtain rfl : last = a := by simpa using hlast
    cases fuel with
    | zero => simp at hfuel
    | succ fuel =>
      refine ⟨e, ?_, by simpa [Cells.ranges] using hres⟩
      simp [memDoneLoop]
  | succ n ih =>
    cases fuel with
    | zero => simp at hfuel
    | succ fuel =>
      rw [Nat.mul_succ] at hv
      have hmul : 0 < 4 * node.cells.words := by omega
      rw [memDoneLoop_round (by omega) (hlast ▸ words_left (by omega) hlen) hbytes]
      have htail := hbytes.drop (n := 4 * node.cells.words) (by omega)
      have hlast' : last = a + BitVec.ofNat 64 (4 * node.cells.words) +
          BitVec.ofNat 64 (v.drop (4 * node.cells.words)).length := by
        rw [hlast, add_ofNat_add, List.length_drop]
        congr 2
        omega
      rw [Cells.ranges, List.append_cons]
      refine ih ?_ ?_ hlast' (Nat.lt_of_succ_lt_succ hfuel) htail ?_
      · rw [List.length_drop]
        omega
      · rw [List.length_drop]
        omega
      · rw [MemRes, lastSize_concat]
        dsimp only
        split_ifs
        · rfl
        · exact hres

/-- `mem_done` adds the ranges of its node. -/
theorem memDone_eq {node : FdtScanNode} {parents : List FdtScanNode} {e : MemScan} {i : MemInfo}
    {rs : List (Word × Word)} (hrec : MemRec m self e i rs)
    (hok : MemReadable (ownCells parents) i) :
    ∃ e', memDone self m (node :: parents) e = .ret () e' ∧
      MemRes self e' (rs ++ i.ranges (ownCells parents)) := by
  cases hi : i.isMemory with
  | false =>
    refine ⟨e, ?_, ?_⟩
    · rw [memDone, Prog.bind_apply]
      simp [hrec.memory, hi]
    · rw [MemInfo.ranges_of_not_memory hi, List.append_nil]
      exact hrec.size
  | true =>
    obtain ⟨c, v, hown, hreg, hw, hdvd⟩ := hok hi
    obtain ⟨hbytes, hlen, hsmall, hne⟩ := hrec.reg v hreg
    obtain ⟨p, ps, rfl, rfl⟩ : ∃ p ps, parents = p :: ps ∧ p.cells = c := by
      cases parents with
      | nil => simp [ownCells] at hown
      | cons p ps => exact ⟨p, ps, rfl, Option.some.inj hown⟩
    obtain ⟨n, hn⟩ := hdvd
    have hfour : v.length % 4 = 0 := by
      rw [hn, Nat.mul_assoc]
      exact Nat.mul_mod_right 4 _
    have hwords : e.regLen.sdiv 4 = BitVec.ofNat 32 (v.length / 4) := by
      rw [hlen, int_div_four (by omega)]
    have hrem : e.regLen.srem 4 = 0 := by
      rw [hlen, int_mod_four (by omega), hfour]
      rfl
    have hlast : e.regValue + 4 * (e.regLen.sdiv 4).signExtend 64 =
        e.regValue + BitVec.ofNat 64 v.length := by
      rw [hwords, int_words (by omega)]
      congr 2
      omega
    have hfuel : n < (e.regLen.sdiv 4).toNat + 1 := by
      have hle : n ≤ v.length / 4 := by
        rw [hn, Nat.mul_assoc, Nat.mul_div_cancel_left _ (by decide)]
        exact Nat.le_mul_of_pos_left n hw
      rw [hwords, BitVec.toNat_ofNat]
      omega
    obtain ⟨e', hloop, hres⟩ := memDoneLoop_eq ps hw hn (by omega) hlast hfuel hbytes hrec.size
    refine ⟨e', ?_, ?_⟩
    · rw [memDone, Prog.bind_apply]
      simp only [Prog.gets_apply, id_eq]
      rw [if_neg (by rw [hrec.memory, hi]; decide), if_neg (not_or.mpr ⟨hne, not_not.mpr hrem⟩),
        List.tail_cons, Prog.bind_of_ret hloop, if_neg (not_not.mpr rfl)]
      rfl
    · have hcount : v.length / (4 * p.cells.words) = n := by
        rw [hn, Nat.mul_div_cancel_left _ (by omega)]
      rw [hown, MemInfo.ranges, if_pos hi, hreg]
      simp only [Option.getD_some, hcount]
      exact hres

/-- The callbacks of `query_mem` collect the memory ranges. -/
theorem memCollects (m : Mem) (self : Word) :
    Collects (memCb self) m memCollector MemReadable (MemRec m self) (MemRes self) where
  close := rfl
  opened := by
    intro path e rs hres
    refine ⟨_, rfl, hres, rfl, fun v hv => ?_⟩
    simp [memCollector] at hv
  prop := by
    intro p name v l e i rs hrec hname h0 hvalue hlen hsmall hne
    have hcmp : ∀ lit, 0 ∉ lit → (strcmp m p.name lit = 0 ↔ name = lit) := fun lit hlit => by
      rw [strcmp_eq_zero hname hlit, cstr_of_not_mem h0]
    refine ⟨_, rfl, ?_⟩
    simp only [hcmp _ (show 0 ∉ literal "device_type" by decide),
      hcmp _ (show 0 ∉ literal "reg" by decide),
      strcmp_eq_zero hvalue (show 0 ∉ literal "memory" by decide), memCollector]
    split_ifs
    · exact ⟨hrec.size, rfl, hrec.reg⟩
    · refine ⟨hrec.size, hrec.memory, fun w hw => ?_⟩
      obtain rfl : v = w := Option.some.inj hw
      exact ⟨(bytesAt_append.mp hvalue).1, hlen, hsmall, hne⟩
    · exact hrec
  done := by
    intro node parents e i rs hrec hok
    exact memDone_eq hrec hok

/-- **The size of the memory.** On every device tree whose memory nodes can be read,
    `query_mem` finds the size of the last range that contains the kernel, and stops the
    machine if there is none or it is empty. -/
theorem queryMem_eq (self : Word) (ht : TreeAt m fdt str items)
    (hmem : items.EachNode memCollector str MemReadable none Cells.default) {fuel : ℕ}
    (hfuel : items.steps ≤ fuel) (e : MemScan) :
    if lastSize self (items.memRanges str) = 0 then
      queryMem fuel self fdt ⟨m, e⟩ = .halt (.assertion "g_mem_size > 0")
    else ∃ e', queryMem fuel self fdt ⟨m, e⟩ = .ret () ⟨m, e'⟩ ∧
      e'.gMemSize = lastSize self (items.memRanges str) := by
  obtain ⟨e', hscan, hres⟩ := (memCollects m self).fdtScan ht hmem hfuel
    (show MemRes self { e with gMemSize := 0 } [] from rfl)
  have hsize : e'.gMemSize = lastSize self (items.memRanges str) := hres
  have hrun : queryMem fuel self fdt ⟨m, e⟩ =
      if e'.gMemSize = 0 then .halt (.assertion "g_mem_size > 0") else .ret () ⟨m, e'⟩ := by
    rw [queryMem, Prog.bind_apply]
    simp only [Prog.modify_apply]
    rw [Prog.bind_of_ret hscan, Prog.bind_apply]
    simp only [Prog.gets_apply, Prog.ite_apply]
    rfl
  rw [hrun, hsize]
  split_ifs
  · rfl
  · exact ⟨e', rfl, hsize⟩

/-! ## HTIF -/

/-- Whether a node is compatible with HTIF, as a collector. -/
def htifCollector : Collector Bool Bool where
  init := false
  add name v found := found || (name = literal "compatible" ∧ cstr v = literal "ucb,htif0")
  finish _ found g := g || found

/-- The callbacks of `query_htif` collect it. -/
theorem htifCollects (m : Mem) : Collects htifCb m htifCollector (fun _ _ => True)
    (fun e found g => e.compat = found ∧ e.htif = g) (fun e g => e.htif = g) where
  close := rfl
  opened := by
    intro path e g hres
    exact ⟨_, rfl, rfl, hres⟩
  prop := by
    intro p name v l e i g hrec hname h0 hvalue hlen hsmall hne
    have hcmp : ∀ lit, 0 ∉ lit → (strcmp m p.name lit = 0 ↔ name = lit) := fun lit hlit => by
      rw [strcmp_eq_zero hname hlit, cstr_of_not_mem h0]
    refine ⟨_, rfl, ?_⟩
    simp only [hcmp _ (show 0 ∉ literal "compatible" by decide),
      strcmp_eq_zero hvalue (show 0 ∉ literal "ucb,htif0" by decide), htifCollector]
    split_ifs with hfound
    · exact ⟨by simp [hfound], hrec.2⟩
    · exact ⟨by simp [hfound, hrec.1], hrec.2⟩
  done := by
    intro node parents e i g hrec _
    refine ⟨_, rfl, ?_⟩
    simp only [htifCollector, hrec.1]
    cases i with
    | false => simpa using hrec.2
    | true => simp

namespace Items

/-- Some property of the contents names HTIF. -/
def namesHtif (str : BitVec 32 → List (BitVec 8)) : Items → Bool
  | .done => false
  | .nop rest => rest.namesHtif str
  | .prop nameoff value rest =>
    (str nameoff = literal "compatible" ∧ cstr value = literal "ucb,htif0") || rest.namesHtif str
  | .node _ _ _ => false

/-- Some node of the contents is compatible with HTIF. -/
def hasHtif (str : BitVec 32 → List (BitVec 8)) : Items → Bool
  | .done => false
  | .nop rest => rest.hasHtif str
  | .prop _ _ rest => rest.hasHtif str
  | .node _ body rest => body.namesHtif str || body.hasHtif str || rest.hasHtif str

theorem gather_htif (items : Items) (found : Bool) :
    items.gather htifCollector str found = (found || items.namesHtif str) := by
  induction items generalizing found with
  | done => simp [gather, namesHtif]
  | nop rest ih => exact ih found
  | prop nameoff value rest ih =>
    rw [gather, ih, namesHtif, ← Bool.or_assoc]
    rfl
  | node name body rest ihb ihr => simp [gather, namesHtif]

theorem collect_htif (items : Items) (own : Option Cells) (child : Cells) (g : Bool) :
    items.collect htifCollector str own child g = (g || items.hasHtif str) := by
  induction items generalizing own child g with
  | done => simp [collect, hasHtif]
  | nop rest ih => exact ih own child g
  | prop nameoff value rest ih => exact ih own child g
  | node name body rest ihb ihr =>
    have hgather : body.gather htifCollector str htifCollector.init = body.namesHtif str :=
      body.gather_htif false
    simp only [collect, ihb, ihr, hgather, hasHtif]
    simp [htifCollector, Bool.or_assoc]

theorem eachNode_true (items : Items) (own : Option Cells) (child : Cells) :
    items.EachNode htifCollector str (fun _ _ => True) own child := by
  induction items generalizing own child with
  | done => trivial
  | nop rest ih => exact ih own child
  | prop nameoff value rest ih => exact ih own child
  | node name body rest ihb ihr => exact ⟨trivial, ihb _ _, ihr _ _⟩

end Items

/-- **Finding HTIF.** On every device tree `query_htif` returns, and `htif` is set if and only
    if it was before or a node of the tree is compatible with HTIF. -/
theorem queryHtif_eq (ht : TreeAt m fdt str items) {fuel : ℕ} (hfuel : items.steps ≤ fuel)
    (e : HtifScan) : ∃ e', queryHtif fuel fdt ⟨m, e⟩ = .ret () ⟨m, e'⟩ ∧
      e'.htif = (e.htif || items.hasHtif str) := by
  obtain ⟨e', hscan, hres⟩ := (htifCollects m).fdtScan ht (items.eachNode_true none _) hfuel
    (show e.htif = e.htif from rfl)
  rw [Items.collect_htif] at hres
  exact ⟨e', hscan, hres⟩

end Pke
