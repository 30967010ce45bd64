import Pke.Spike.Probe
import Pke.Boot.Memory

/-!
# Writing a device tree and reading it back

`blob` lays out a whole blob: the header, an empty memory reservation block, the structure
block and the strings block. Where memory holds it, the scans of `Pke.Spike.Probe` find the
tree again (`TreeAt.of_blob`), so what the kernel learns at boot is what the tree says:

* `queryMem_blob`, `queryHtif_blob`: for every tree that can be written;
* `memRanges_eq_format`: the ranges are those of the device tree format if every node with
  a memory node below it declares its cell counts;
* `boot_pages_in_range`: with `pmm_init` behind `query_mem`, every page of the free list is
  inside a memory range of the tree.
-/

namespace Pke

open Lib

variable {m : Mem} {fdt : Word} {items : Items} {sb : List (BitVec 8)}

/-- The name at an offset of a strings block. -/
def nameAt (sb : List (BitVec 8)) (off : BitVec 32) : List (BitVec 8) := cstr (sb.drop off.toNat)

/-- Every name that the contents use ends in the strings block. -/
def Items.NamesEnd (sb : List (BitVec 8)) : Items → Prop
  | .done => True
  | .nop rest => rest.NamesEnd sb
  | .prop nameoff _ rest => 0 ∈ sb.drop nameoff.toNat ∧ rest.NamesEnd sb
  | .node _ body rest => body.NamesEnd sb ∧ rest.NamesEnd sb

/-- The offset of the strings block: behind the header, the empty reservation block and the
    structure block. -/
def stringsOffset (items : Items) : ℕ := 56 + items.bytes.length + 4

/-- A whole blob. -/
def blob (items : Items) (sb : List (BitVec 8)) : List (BitVec 8) :=
  be32 FDT_MAGIC ++ (be32 (BitVec.ofNat 32 (stringsOffset items + sb.length)) ++ (be32 56 ++
    (be32 (BitVec.ofNat 32 (stringsOffset items)) ++ (be32 40 ++ (be32 17 ++ (be32 16 ++
      (be32 0 ++ (be32 (BitVec.ofNat 32 sb.length) ++
        (be32 (BitVec.ofNat 32 (items.bytes.length + 4)) ++ (List.replicate 16 0 ++
          (items.bytes ++ (be32 FDT_END ++ sb))))))))))))

theorem blob_length : (blob items sb).length = stringsOffset items + sb.length := by
  simp only [blob, stringsOffset, List.length_append, be32_length, List.length_replicate]
  omega

/-- What stands behind the NUL of a string does not matter. -/
theorem cstr_terminated {l : List (BitVec 8)} (h : 0 ∈ l) :
    0 ∉ cstr l ∧ ∃ l', l = cstr l ++ 0 :: l' := by
  induction l with
  | nil => simp at h
  | cons b l ih =>
    by_cases hb : b = 0
    · subst hb
      exact ⟨by simp [cstr], l, by simp [cstr]⟩
    · have hcons : cstr (b :: l) = b :: cstr l := by
        rw [cstr, List.takeWhile_cons, if_pos (decide_eq_true hb)]
        rfl
      obtain ⟨hnot, l', hl'⟩ := ih ((List.mem_cons.mp h).resolve_left (Ne.symm hb))
      refine ⟨?_, l', ?_⟩
      · rw [hcons, List.mem_cons]
        exact not_or.mpr ⟨Ne.symm hb, hnot⟩
      · rw [hcons, List.cons_append, ← hl']

/-- The names that end in the strings block can be read there. -/
theorem Items.NamesEnd.named {strings : Word} (hsb : BytesAt m strings sb)
    (h : items.NamesEnd sb) : items.Named m strings (nameAt sb) := by
  induction items with
  | done => trivial
  | nop rest ih => exact ih h
  | prop nameoff value rest ih =>
    refine ⟨?_, ih h.2⟩
    obtain ⟨hnot, l', hl'⟩ := cstr_terminated h.1
    have hoff : nameoff.toNat ≤ sb.length := by
      by_contra hlong
      have h0 : 0 ∈ sb.drop nameoff.toNat := h.1
      rw [List.drop_eq_nil_of_le (by omega)] at h0
      exact absurd h0 List.not_mem_nil
    have hname := hsb.drop hoff
    rw [hl', ← List.singleton_append, ← List.append_assoc] at hname
    refine ⟨?_, hnot⟩
    rw [show nameoff.setWidth 64 = BitVec.ofNat 64 nameoff.toNat from
      (BitVec.ofNat_toNat 64 nameoff).symm]
    exact (bytesAt_append.mp hname).1
  | node name body rest ihb ihr => exact ⟨ihb h.1, ihr h.2⟩

/-- A device tree that can be written: nodes only at the top, names in the strings block, and
    offsets of 32 bits. -/
structure Writable (items : Items) (sb : List (BitVec 8)) : Prop where
  wf : items.WF true
  names : items.NamesEnd sb
  cells : items.CellsGiven (nameAt sb)
  size : stringsOffset items + sb.length < 2 ^ 32

theorem Items.WF.weaken (h : items.WF true) : items.WF false := by
  induction items with
  | done => trivial
  | nop rest ih => exact ih h
  | prop nameoff value rest ih => exact absurd h.1 (by decide)
  | node name body rest ihb ihr => exact h

/-- **The blob of a tree is a blob with that tree**, at every address where it does not wrap
    around. -/
theorem TreeAt.of_blob (hw : Writable items sb) (hm : BytesAt m fdt (blob items sb))
    (hroom : fdt.toNat + (blob items sb).length ≤ 2 ^ 64) :
    TreeAt m fdt (nameAt sb) items := by
  have hsize := hw.size
  have hlen : (blob items sb).length = stringsOffset items + sb.length := blob_length
  have hcell : ∀ {k : ℕ} {w : BitVec 32} {l : List (BitVec 8)}, k ≤ (blob items sb).length →
      (blob items sb).drop k = be32 w ++ l → cell m (fdt + BitVec.ofNat 64 k) = w := by
    intro k w l hk hdrop
    have htail := hm.drop hk
    rw [hdrop] at htail
    exact cell_of_bytesAt htail
  have hlong : 56 ≤ (blob items sb).length := by
    rw [hlen, stringsOffset]
    omega
  have hmagic : cell m (fdt + BitVec.ofNat 64 0) = FDT_MAGIC := hcell (by omega) rfl
  have hstruct : cell m (fdt + BitVec.ofNat 64 8) = 56 := hcell (by omega) rfl
  have hstrings : cell m (fdt + BitVec.ofNat 64 12) = BitVec.ofNat 32 (stringsOffset items) :=
    hcell (by omega) rfl
  have hversion : cell m (fdt + BitVec.ofNat 64 24) = 16 := hcell (by omega) rfl
  have hstructOf : structOf m fdt = fdt + BitVec.ofNat 64 56 := by
    rw [structOf, show fdt + 8 = fdt + BitVec.ofNat 64 8 from rfl, hstruct]
    rfl
  have hstringsOf : stringsOf m fdt = fdt + BitVec.ofNat 64 (stringsOffset items) := by
    rw [stringsOf, show fdt + 12 = fdt + BitVec.ofNat 64 12 from rfl, hstrings]
    congr 1
    apply BitVec.eq_of_toNat_eq
    rw [BitVec.toNat_setWidth, BitVec.toNat_ofNat, BitVec.toNat_ofNat]
    omega
  have hbody : BytesAt m (fdt + BitVec.ofNat 64 56) (items.bytes ++ (be32 FDT_END ++ sb)) := by
    have htail := hm.drop hlong
    exact htail
  have hsb : BytesAt m (stringsOf m fdt) sb := by
    have htail := (bytesAt_append.mp (bytesAt_append.mp hbody).2).2
    rw [be32_length, add_ofNat_add, add_ofNat_add, ← Nat.add_assoc] at htail
    rw [hstringsOf]
    exact htail
  have hN : (structOf m fdt).toNat = fdt.toNat + 56 := by
    rw [hstructOf, Placed.add_toNat]
    rw [hlen, stringsOffset] at hroom
    omega
  refine ⟨⟨by simpa using hmagic, ?_, ?_, hw.wf.weaken⟩, hw.wf, hw.names.named hsb, hw.cells,
    by omega, ?_⟩
  · rw [show fdt + 24 = fdt + BitVec.ofNat 64 24 from rfl, hversion]
    decide
  · rw [← List.append_assoc] at hbody
    have := (bytesAt_append.mp hbody).1
    rw [← hstructOf] at this
    exact this
  · rw [hN]
    rw [hlen, stringsOffset] at hroom
    omega

/-! ## A small tree -/

/-- Memory with a list of bytes written to it. -/
def writeBytes (m : Mem) : Word → List (BitVec 8) → Mem
  | _, [] => m
  | a, b :: l => store8 (writeBytes m (a + 1) l) a b

theorem writeBytes_bytesAt {l : List (BitVec 8)} (hl : l.length ≤ 2 ^ 64) (m : Mem) (a : Word) :
    BytesAt (writeBytes m a l) a l := by
  induction l generalizing a with
  | nil => trivial
  | cons b l ih =>
    rw [List.length_cons] at hl
    refine ⟨by rw [writeBytes, load8_store8, if_pos rfl], ?_⟩
    refine (ih (by omega) (a + 1)).congr fun k hk => ?_
    rw [writeBytes, load8_store8, if_neg]
    rw [iterate_add_one, show a + 1 = a + BitVec.ofNat 64 1 from rfl, add_ofNat_add]
    intro heq
    have hN := congrArg BitVec.toNat heq
    rw [BitVec.toNat_add, BitVec.toNat_ofNat] at hN
    have := a.isLt
    omega

/-- The names of the small tree. -/
def sampleNames : List (BitVec 8) :=
  literal "#address-cells" ++ 0 :: (literal "#size-cells" ++ 0 :: (literal "device_type" ++ 0 ::
    (literal "reg" ++ 0 :: (literal "compatible" ++ [0]))))

/-- A root with two cells for addresses and for sizes, a memory node and HTIF. -/
def sampleTree : Items :=
  .node [] (.prop 0 (be32 2) (.prop 15 (be32 2)
    (.node (literal "memory") (.prop 27 (literal "memory" ++ [0])
      (.prop 39 (be32 0 ++ be32 0x80000000 ++ (be32 0 ++ be32 0x8000000)) .done))
    (.node (literal "htif") (.prop 43 (literal "ucb,htif0" ++ [0]) .done) .done)))) .done

theorem sampleTree_writable : Writable sampleTree sampleNames := by
  refine ⟨?_, ?_, ?_, ?_⟩
  · simp only [sampleTree, Items.WF]
    decide
  · simp only [sampleTree, Items.NamesEnd]
    decide
  · simp only [sampleTree, Items.CellsGiven]
    decide
  · decide +kernel

theorem sampleTree_readable :
    sampleTree.EachNode memCollector (nameAt sampleNames) MemReadable none Cells.default := by
  refine ⟨fun hroot => absurd hroot (by decide), ⟨fun _ => ?_, trivial,
    fun hhtif => absurd hhtif (by decide), trivial, trivial⟩, trivial⟩
  refine ⟨⟨2, 2⟩, be32 0 ++ be32 0x80000000 ++ (be32 0 ++ be32 0x8000000), ?_, ?_, ?_, ?_⟩
  all_goals decide

/-- Memory with the blob of the small tree at `0x10000`. -/
def sampleMem : Mem := writeBytes (fun _ _ => 0) 0x10000 (blob sampleTree sampleNames)

theorem sampleTree_length : (blob sampleTree sampleNames).length < 2 ^ 32 := by
  rw [blob_length]
  exact sampleTree_writable.size

theorem sampleMem_blob : BytesAt sampleMem 0x10000 (blob sampleTree sampleNames) :=
  writeBytes_bytesAt (by have := sampleTree_length; omega) _ _

theorem sampleTree_room :
    (0x10000 : Word).toNat + (blob sampleTree sampleNames).length ≤ 2 ^ 64 := by
  have := sampleTree_length
  rw [show (0x10000 : Word).toNat = 0x10000 from rfl]
  omega

/-! ## From tree to kernel -/

/-- **The size of the memory, from tree to kernel.** Where memory holds the blob of a device
    tree whose memory nodes can be read, `query_mem` finds the size of the last memory range
    of the tree that contains the kernel. -/
theorem queryMem_blob (self : Word) (hw : Writable items sb)
    (hmem : items.EachNode memCollector (nameAt sb) MemReadable none Cells.default)
    (hm : BytesAt m fdt (blob items sb)) (hroom : fdt.toNat + (blob items sb).length ≤ 2 ^ 64)
    {fuel : ℕ} (hfuel : items.steps ≤ fuel) (e : MemScan) :
    if lastSize self (items.memRanges (nameAt sb)) = 0 then
      queryMem fuel self fdt ⟨m, e⟩ = .halt (.assertion "g_mem_size > 0")
    else ∃ e', queryMem fuel self fdt ⟨m, e⟩ = .ret () ⟨m, e'⟩ ∧
      e'.gMemSize = lastSize self (items.memRanges (nameAt sb)) :=
  queryMem_eq self (.of_blob hw hm hroom) hmem hfuel e

theorem queryMem_blob_sample : ∃ e', queryMem 12 0x80000000 0x10000
    ⟨sampleMem, ⟨false, 0, 0, 0⟩⟩ = .ret () ⟨sampleMem, e'⟩ ∧ e'.gMemSize = 0x8000000 := by
  have hsize : lastSize 0x80000000 (sampleTree.memRanges (nameAt sampleNames)) = 0x8000000 := by
    decide
  have hrun := queryMem_blob 0x80000000 sampleTree_writable sampleTree_readable sampleMem_blob
    sampleTree_room (show sampleTree.steps ≤ 12 by decide) ⟨false, 0, 0, 0⟩
  rwa [hsize, if_neg (by decide)] at hrun

/-- **Finding HTIF, from tree to kernel.** `query_htif` finds HTIF exactly if some node of the
    tree is compatible with it. -/
theorem queryHtif_blob (hw : Writable items sb) (hm : BytesAt m fdt (blob items sb))
    (hroom : fdt.toNat + (blob items sb).length ≤ 2 ^ 64) {fuel : ℕ} (hfuel : items.steps ≤ fuel)
    (e : HtifScan) : ∃ e', queryHtif fuel fdt ⟨m, e⟩ = .ret () ⟨m, e'⟩ ∧
      e'.htif = (e.htif || items.hasHtif (nameAt sb)) :=
  queryHtif_eq (.of_blob hw hm hroom) hfuel e

theorem queryHtif_blob_sample : ∃ e', queryHtif 12 0x10000 ⟨sampleMem, ⟨false, false⟩⟩ =
    .ret () ⟨sampleMem, e'⟩ ∧ e'.htif = true := by
  have hhtif : sampleTree.hasHtif (nameAt sampleNames) = true := by decide
  have hrun := queryHtif_blob sampleTree_writable sampleMem_blob sampleTree_room
    (show sampleTree.steps ≤ 12 by decide) ⟨false, false⟩
  rwa [hhtif] at hrun

/-! ## The cell counts of the format

In the device tree format a node without a declaration has two cells for addresses and one
for sizes. The code gives that to the first child of a node only. -/

namespace Items

variable {ι γ : Type} {str : BitVec 32 → List (BitVec 8)}

/-- What a collector computes with the cell counts of the format. -/
def collectFormat (K : Collector ι γ) (str : BitVec 32 → List (BitVec 8)) :
    Items → Option Cells → γ → γ
  | .done, _, g => g
  | .nop rest, own, g => rest.collectFormat K str own g
  | .prop _ _ rest, own, g => rest.collectFormat K str own g
  | .node _ body rest, own, g =>
    rest.collectFormat K str own (body.collectFormat K str (some (body.cells str Cells.default))
      (K.finish own (body.gather K str K.init) g))

/-- One of the nodes is a memory node. -/
def memoryChild (str : BitVec 32 → List (BitVec 8)) : Items → Bool
  | .done => false
  | .nop rest => rest.memoryChild str
  | .prop _ _ rest => rest.memoryChild str
  | .node _ body rest => (body.gather memCollector str memCollector.init).isMemory ||
      rest.memoryChild str

/-- The value of the last property with the given name. -/
def declared (str : BitVec 32 → List (BitVec 8)) (name : List (BitVec 8)) :
    Items → Option (BitVec 32)
  | .done => none
  | .nop rest => rest.declared str name
  | .prop nameoff value rest => (rest.declared str name).or
      (if str nameoff = name then some (Cells.first value) else none)
  | .node _ _ _ => none

/-- Every node with a memory node below it declares both counts. -/
def MemoryDeclared (str : BitVec 32 → List (BitVec 8)) : Items → Prop
  | .done => True
  | .nop rest => rest.MemoryDeclared str
  | .prop _ _ rest => rest.MemoryDeclared str
  | .node _ body rest => (body.memoryChild str = true →
      (body.declared str (literal "#address-cells")).isSome ∧
        (body.declared str (literal "#size-cells")).isSome) ∧
      body.MemoryDeclared str ∧ rest.MemoryDeclared str

theorem cells_eq (items : Items) (c : Cells) : items.cells str c =
    ⟨(items.declared str (literal "#address-cells")).getD c.address,
      (items.declared str (literal "#size-cells")).getD c.size⟩ := by
  induction items generalizing c with
  | done => rfl
  | nop rest ih => exact ih c
  | prop nameoff value rest ih =>
    have hor : ∀ (x : Option (BitVec 32)) (p : Prop) [Decidable p] (w w' : BitVec 32),
        x.getD (if p then w else w') = (x.or (if p then some w else none)).getD w' := by
      intro x p _ w w'
      cases x <;> by_cases hp : p <;> simp [hp]
    rw [cells, ih, declared, declared, ← hor, ← hor]
    rfl
  | node name body rest ihb ihr => rfl

/-- Contents that declare both counts end with the same cells, whatever they start with. -/
theorem cells_of_declared {items : Items}
    (ha : (items.declared str (literal "#address-cells")).isSome)
    (hs : (items.declared str (literal "#size-cells")).isSome) (c c' : Cells) :
    items.cells str c = items.cells str c' := by
  obtain ⟨x, hx⟩ := Option.isSome_iff_exists.mp ha
  obtain ⟨y, hy⟩ := Option.isSome_iff_exists.mp hs
  rw [cells_eq, cells_eq, hx, hy]
  rfl

/-- The cells of the parent only matter for memory nodes, and there they are declared. -/
theorem collect_eq_format (items : Items) (hdecl : items.MemoryDeclared str)
    {own own' : Option Cells} (hown : items.memoryChild str = true → own = own') (child : Cells)
    (rs : List (Word × Word)) :
    items.collect memCollector str own child rs = items.collectFormat memCollector str own' rs := by
  induction items generalizing own own' child rs with
  | done => rfl
  | nop rest ih => exact ih hdecl hown child rs
  | prop nameoff value rest ih => exact ih hdecl hown child rs
  | node name body rest ihb ihr =>
    obtain ⟨hbody, hdeclb, hdeclr⟩ := hdecl
    have hfinish : memCollector.finish own (body.gather memCollector str memCollector.init) rs =
        memCollector.finish own' (body.gather memCollector str memCollector.init) rs := by
      cases hm : (body.gather memCollector str memCollector.init).isMemory with
      | true => rw [hown (by simp [memoryChild, hm])]
      | false =>
        show _ ++ _ = _ ++ _
        rw [MemInfo.ranges_of_not_memory hm, MemInfo.ranges_of_not_memory hm]
    have hcells : body.memoryChild str = true → some (body.cells str child) =
        some (body.cells str Cells.default) := fun hm =>
      congrArg some (cells_of_declared (hbody hm).1 (hbody hm).2 _ _)
    rw [collect, collectFormat, hfinish, ihb hdeclb hcells]
    exact ihr hdeclr (fun hm => hown (by simp [memoryChild, hm])) _ _

end Items

/-- **The ranges are those of the format** for every tree in which each node with a memory node
    below it declares its cell counts. -/
theorem memRanges_eq_format {str : BitVec 32 → List (BitVec 8)}
    (hdecl : items.MemoryDeclared str) :
    items.memRanges str = items.collectFormat memCollector str none [] :=
  items.collect_eq_format hdecl (fun _ => rfl) _ _

theorem memRanges_eq_format_sample : sampleTree.memRanges (nameAt sampleNames) =
    sampleTree.collectFormat memCollector (nameAt sampleNames) none [] :=
  memRanges_eq_format ⟨fun _ => by decide, ⟨fun hm => absurd hm (by decide), trivial,
    fun hm => absurd hm (by decide), trivial, trivial⟩, trivial⟩

/-- The second child of the root declares nothing, so it should have one cell for sizes; the
    code gives it the two of the first child. -/
example :
    let tree := Items.node [] (.node (literal "cpus") (.prop 15 (be32 2) .done)
      (.node (literal "soc") (.node (literal "memory") (.prop 27 (literal "memory" ++ [0])
        (.prop 39 (be32 0 ++ be32 0x80000000 ++ (be32 0 ++ be32 0x8000000)) .done)) .done)
        .done)) .done
    tree.memRanges (nameAt sampleNames) = [(0x80000000, 0x8000000)] ∧
      tree.collectFormat memCollector (nameAt sampleNames) none [] = [(0x80000000, 0)] := by
  decide

/-! ## The free pages -/

theorem lastSize_ne_zero {self : Word} {rs : List (Word × Word)} (h : lastSize self rs ≠ 0) :
    ∃ r ∈ rs, covers self r ∧ r.2 = lastSize self rs := by
  unfold lastSize at h ⊢
  cases hlast : (rs.filter (covers self)).getLast? with
  | none => simp [hlast] at h
  | some r =>
    have hmem := List.mem_filter.mp (List.mem_of_getLast? hlast)
    exact ⟨r, hmem.1, hmem.2, by simp⟩

/-- **The free pages are memory.** After `query_mem` and `pmm_init` every page of the free list
    is inside a memory range of the device tree, if the ranges that contain the code start at
    or above `DRAM_BASE`. -/
theorem boot_pages_in_range {kend self : Word} {s s' : Kernel} {scan : Scan MemScan}
    (hself : self ≤ kend) (hk : KERN_BASE ≤ kend) (hw : Writable items sb)
    (hmem : items.EachNode memCollector (nameAt sb) MemReadable none Cells.default)
    (hm : BytesAt s.phys.mem fdt (blob items sb))
    (hroom : fdt.toNat + (blob items sb).length ≤ 2 ^ 64) {fuel : ℕ} (hfuel : items.steps ≤ fuel)
    {e : MemScan} (hquery : queryMem fuel self fdt ⟨s.phys.mem, e⟩ = .ret () scan)
    (hinit : pmmInit kend { s with gMemSize := scan.extra.gMemSize } = .ret () s')
    (hbase : ∀ r ∈ items.memRanges (nameAt sb), covers self r → DRAM_BASE ≤ r.1) :
    ∃ r ∈ items.memRanges (nameAt sb), covers self r ∧ ∃ fl, FreeList s'.phys fl ∧
      ∀ p ∈ fl, r.1.toNat ≤ p.toNat * 4096 ∧ p.toNat * 4096 + 4096 ≤ r.1.toNat + r.2.toNat := by
  have hblob := queryMem_eq self (.of_blob hw hm hroom) hmem hfuel e
  split_ifs at hblob with h0
  · rw [hquery] at hblob
    cases hblob
  obtain ⟨e', hret, hsize⟩ := hblob
  obtain rfl : scan = ⟨s.phys.mem, e'⟩ := by
    rw [hquery] at hret
    cases hret
    rfl
  obtain ⟨r, hr, hcov, hlast⟩ := lastSize_ne_zero h0
  obtain ⟨hfit, ⟨fl, hready⟩, -⟩ := Prog.wp_ret (pmmInit_spec hk _) hinit
  refine ⟨r, hr, hcov, fl, hready.free, fun p hp => ?_⟩
  have hpage := (hready.mem_iff hk hfit p).mp hp
  have hkend := kend_toNat_le hk hfit
  have hstart := ROUNDUP_toNat (a := kend) (by omega) (by
    have := usableSize_toNat_le e'.gMemSize
    simp only at hkend
    omega)
  have hlow : r.1.toNat ≤ self.toNat := by
    simp only [covers, decide_eq_true_eq] at hcov
    exact hcov.1
  have hdram := hbase r hr hcov
  have husable : (usableSize e'.gMemSize).toNat ≤ r.2.toNat := by
    rw [hlast, ← hsize, usableSize]
    split_ifs with hmax
    · exact Nat.le_of_lt hmax
    · exact le_rfl
  have hend := end_toNat e'.gMemSize
  rw [BitVec.le_def] at hself hdram
  rw [show DRAM_BASE.toNat = 2 ^ 31 from rfl] at hdram
  simp only at hpage
  constructor <;> omega

theorem boot_pages_in_range_sample : ∃ s s' : Kernel, s.phys.mem = sampleMem ∧
    pmmInit 0x80001000 s = .ret () s' ∧ ∃ r ∈ sampleTree.memRanges (nameAt sampleNames),
    covers 0x80000000 r ∧ ∃ fl, FreeList s'.phys fl ∧
      ∀ p ∈ fl, r.1.toNat ≤ p.toNat * 4096 ∧ p.toNat * 4096 + 4096 ≤ r.1.toNat + r.2.toNat := by
  have hranges : sampleTree.memRanges (nameAt sampleNames) = [(0x80000000, 0x8000000)] := by
    decide
  have hsize : lastSize 0x80000000 (sampleTree.memRanges (nameAt sampleNames)) = 0x8000000 := by
    rw [hranges]
    decide
  have hq := queryMem_eq 0x80000000
    (.of_blob sampleTree_writable sampleMem_blob sampleTree_room) sampleTree_readable
    (show sampleTree.steps ≤ 12 by decide) ⟨false, 0, 0, 0⟩
  rw [hsize, if_neg (by decide)] at hq
  obtain ⟨e', hq, he⟩ := hq
  obtain ⟨_, s', hrun, -⟩ := Prog.returns_of_wp
    (pmmInit_spec (show KERN_BASE ≤ 0x80001000 by decide)
      { powerOn e'.gMemSize with phys := ⟨sampleMem, 0, 0, 0⟩ }) fun _ h => by
      simp only [powerOn, he] at h
      exact absurd h (by decide)
  refine ⟨_, s', rfl, hrun, boot_pages_in_range
    (s := { powerOn e'.gMemSize with phys := ⟨sampleMem, 0, 0, 0⟩ }) (by decide) (by decide)
    sampleTree_writable sampleTree_readable sampleMem_blob sampleTree_room (by decide) hq hrun ?_⟩
  intro r hr _
  rw [hranges, List.mem_singleton] at hr
  rw [hr]
  decide

end Pke
