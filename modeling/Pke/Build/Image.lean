import Pke.Build.Frames
import Pke.Runs.Memory

/-!
# What a loaded program finds in its segments

`elf_load` reads `memsz` bytes of the file to the beginning of the page it took, and maps
that page at the page of `vaddr`. So user code that reads at `vaddr + k` finds what the
file has at `off + vaddr % PGSIZE + k`, and zeros from `off + memsz` on:

* `read_segment`: the byte at `vaddr + k`, for every segment, as long as `vaddr + k` is in
  the page of `vaddr`;
* `segments_placed`: which images are placed as their headers say. A segment at a page
  boundary is if and only if the file has zeros for it between `filesz` and `memsz`.
-/

namespace Pke

open Lib Radix

variable {L : Layout} {s₀ s s' : Kernel} {fl₀ fl : List Ppn} {i : Pid} {tf pt ks us mi P : Ppn}
  {f : HostFile} {h : ElfProgHeader} {n : ℕ}

/-- What the headers promise at offset `k` of a segment. -/
def expectedByte (f : HostFile) (h : ElfProgHeader) (k : ℕ) : BitVec 8 :=
  if k < h.filesz.toNat then f.byte (h.off.toNat + k) else 0

/-- Every segment of the program header table is in memory as the headers say. -/
def SegmentsPlaced (f : HostFile) (i : Pid) (s : Kernel) : Prop :=
  ∀ h ∈ f.tableLoads, ∀ k < h.memsz.toNat,
    readByte s i (h.vaddr + BitVec.ofNat 64 k) = some (expectedByte f h k)

/-- The segment ends in the page it starts in. -/
def ElfProgHeader.InPage (h : ElfProgHeader) : Prop :=
  h.vaddr.toNat % 4096 + h.memsz.toNat ≤ 4096

instance (h : ElfProgHeader) : Decidable h.InPage := inferInstanceAs (Decidable (_ ≤ _))

/-- A segment for which what `elf_load` puts at the beginning of the page is what belongs at
    the offset of `vaddr` in it. -/
structure LoadsFaithfully (f : HostFile) (h : ElfProgHeader) : Prop where
  low : h.memsz ≠ 0 → h.vaddr < MAXVA
  bytes : ∀ k < h.memsz.toNat, h.vaddr.toNat % 4096 + k < 4096 →
    segmentByte f h (h.vaddr.toNat % 4096 + k) = expectedByte f h k

/-- For a segment at a page boundary only the bytes behind `filesz` matter. -/
theorem loadsFaithfully_aligned (hva : h.vaddr.toNat % 4096 = 0) (hlow : h.vaddr < MAXVA)
    (hsize : h.memsz < PGSIZE) :
    LoadsFaithfully f h ↔
      ∀ k, h.filesz.toNat ≤ k → k < h.memsz.toNat → f.byte (h.off.toNat + k) = 0 := by
  have hpage : h.memsz.toNat < 4096 := BitVec.lt_def.mp hsize
  constructor
  · intro hok k hfile hmem
    have hbyte := hok.bytes k hmem (by omega)
    rw [hva, Nat.zero_add, segmentByte, if_pos hmem, expectedByte, if_neg (by omega)] at hbyte
    exact hbyte
  · intro hzero
    refine ⟨fun _ => hlow, fun k hmem _ => ?_⟩
    rw [hva, Nat.zero_add, segmentByte, if_pos hmem, expectedByte]
    split_ifs with hfile
    · rfl
    · exact hzero k (by omega) hmem

/-! ## Reading a segment -/

theorem exists_mem_zip {α β : Type} {xs : List α} {ys : List β} (hlen : ys.length = xs.length)
    {x : α} (hx : x ∈ xs) : ∃ y, (x, y) ∈ xs.zip ys := by
  obtain ⟨k, hk, rfl⟩ := List.mem_iff_getElem.mp hx
  have hz : k < (xs.zip ys).length := by
    rw [List.length_zip]
    omega
  refine ⟨ys[k], ?_⟩
  have hget := List.getElem_mem hz
  rwa [List.getElem_zip] at hget

/-- The address `k` bytes into a segment, in the page of `vaddr`. -/
theorem toNat_add_offset {va : Word} {k : ℕ} (hk : va.toNat % 4096 + k < 4096) :
    (va + BitVec.ofNat 64 k).toNat = va.toNat + k := by
  have := va.isLt
  rw [BitVec.toNat_add, BitVec.toNat_ofNat]
  omega

/-- What user code reads through an entry that `elf_alloc_mb` made. -/
theorem readByte_segment {k : ℕ} {p : Ppn} {m : Mem} {va : Word} (hva : va.toNat < 2 ^ 38)
    (hleaf : translate m pt (vpnOf (va.toNat / 4096)) = some (mkPte (addr p) elfPerm))
    (hk : va.toNat % 4096 + k < 4096) :
    userTranslate m (addr pt) (va + BitVec.ofNat 64 k) PTE_R =
      some (addr p + BitVec.ofNat 64 (va.toNat % 4096 + k)) := by
  have hN := toNat_add_offset hk
  have hvpn : vpn (va + BitVec.ofNat 64 k) = vpnOf (va.toNat / 4096) := by
    rw [eq_vpnOf_iff (by omega), vpn_toNat (by omega), hN]
    omega
  have hflags : mkPte (addr p) elfPerm &&& (PTE_U ||| PTE_R) = PTE_U ||| PTE_R := by
    rw [mkPte_and_flag _ _ (by decide)]
    decide
  have hoff : va + BitVec.ofNat 64 k &&& 0xFFF#64 = BitVec.ofNat 64 (va.toNat % 4096 + k) := by
    apply BitVec.eq_of_toNat_eq
    rw [and_mask, BitVec.toNat_umod, hN, BitVec.toNat_ofNat, show PGSIZE.toNat = 4096 from rfl]
    omega
  rw [userTranslate, if_pos (canonical_of_lt (by omega)), hvpn, ppn_addr, hleaf, Option.bind_some,
    if_pos hflags, PTE2PA_mkPte (addr_mod p) (by decide), hoff]

/-- The last page of the address space, where `map_pages` maps nothing. -/
theorem vpn_top {va : Word} {k : ℕ} (hva : 2 ^ 64 < va.toNat + 4096)
    (hk : va.toNat % 4096 + k < 4096) :
    (vpn (va + BitVec.ofNat 64 k)).toNat = 2 ^ 27 - 1 := by
  have hN := toNat_add_offset hk
  have := va.isLt
  rw [vpn, BitVec.extractLsb'_toNat, Nat.shiftRight_eq_div_pow, hN]
  omega

theorem Made.segment_byte (hm : Made L s₀ fl₀ i tf pt ks us mi s fl) (hnext : mi + 1 = us)
    (hrun : LoadRun f i f.loads s s') (hh : h ∈ f.loads) {k : ℕ}
    (hk : h.vaddr.toNat % 4096 + k < 4096) :
    readByte s' i (h.vaddr + BitVec.ofNat 64 k) =
      if h.vaddr < MAXVA then some (segmentByte f h (h.vaddr.toNat % 4096 + k)) else none := by
  have hroot : (withPages (s₀.procs i) tf pt ks mi).space.root = pt := withPages_root _ _ _ _ _
  obtain ⟨fl', hl', hlen, -, hholds, hleaf⟩ := hrun.frames hm.inLoad
    (by rw [withPages_own, hnext]; simp) (by rw [hroot]; exact hm.tight)
  rw [hroot] at hleaf
  generalize segmentFrames (initialPages L (addr tf)) fl f.loads = fs at *
  have hpt : (s'.procs i).pagetable = addr pt := by
    have hspace := congrArg AddrSpace.pagetable hl'.space
    exact hspace.trans (hl'.aligned.pagetable.symm.trans (congrArg addr hroot))
  obtain ⟨p, hmem⟩ := exists_mem_zip hlen hh
  obtain ⟨hbytes, hcount⟩ := hholds h p hmem
  by_cases hlow : h.vaddr < MAXVA
  · have hN := toNat_lt_of_lt_MAXVA hlow
    have hentry := (hleaf (vpnOf (h.vaddr.toNat / 4096)) (mkPte (addr p) elfPerm)).mpr
      (Or.inr ⟨h, p, 0, hmem, ?_, rfl, by rw [show vaddr 0 = 0#64 from rfl, BitVec.add_zero]⟩)
    · rw [if_pos hlow, readByte, hpt, readByte_segment hN hentry hk, Option.map_some, hbytes _ hk]
    · unfold mapCount
      split_ifs <;> omega
  · -- nothing was mapped, and no other entry is for that page
    rw [if_neg hlow, readByte, Option.map_eq_none_iff, hpt, Option.eq_none_iff_forall_ne_some]
    intro pa hpa
    have htop : 2 ^ 64 < h.vaddr.toNat + 4096 := by
      have hge : ¬ h.vaddr.toNat < 2 ^ 38 := fun hlt => hlow (lt_MAXVA hlt)
      have hzero := hcount.resolve_right (by omega)
      unfold mapCount at hzero
      split_ifs at hzero
      omega
    have hv := vpn_top htop hk
    obtain ⟨w, -, hw, hU, -⟩ := userTranslate_eq_some hpa
    rw [ppn_addr] at hw
    rcases (hleaf _ _).mp hw with hold | ⟨h', p', k', hmem', hk', hv', -⟩
    · rw [(hm.user_leaf hold hU).1] at hv
      exact absurd hv (by decide)
    · have hcount' := (hholds h' p' hmem').2
      have hle := mapCount_le h'.vaddr
      rw [hv', vpnOf_toNat (by omega)] at hv
      omega

/-! ## Whole images -/

/-- **What user code reads in a segment.** For every image that `elf_load` accepts and every
    segment it meets: the file from `off + vaddr % PGSIZE` on, up to `off + memsz`, and zeros
    behind that, in the whole page of `vaddr`. -/
theorem read_segment (hfree : FreeList s₀.phys (pagesDown P n))
    (hmade : allocProcess L s₀ = .ret i s) (hload : elfLoad f i s = .ret .elOk s')
    (hh : h ∈ f.loads) {k : ℕ} (hk : h.vaddr.toNat % 4096 + k < 4096) :
    readByte s' i (h.vaddr + BitVec.ofNat 64 k) =
      if h.vaddr < MAXVA then some (segmentByte f h (h.vaddr.toNat % 4096 + k)) else none := by
  obtain ⟨-, tf, pt, ks, us, mi, fl, hm⟩ := Prog.wp_ret (allocProcess_made hfree) hmade
  exact hm.segment_byte hm.next_info (elfLoad_run hload) hh hk

/-- A segment of eight bytes at `0x10010`: at its address user code finds the zeros behind
    the bytes of the file. -/
theorem read_segment_sample : ∃ s₀ i s s', FreeList s₀.phys (pagesDown 0x80010 127) ∧
    allocProcess sampleLayout s₀ = .ret i s ∧
    elfLoad (elfWith [wordAt 5 0x10010]) i s = .ret .elOk s' ∧
    readByte s' i (0x10010 + BitVec.ofNat 64 1) = some 0 := by
  have hloads : (elfWith [wordAt 5 0x10010]).loads = [wordAt 5 0x10010] := rfl
  obtain ⟨s₀, i, s, s', -, -, -, -, -, -, ⟨hfree, hrun, hok, -, -⟩⟩ :=
    sampleLoad_word (by decide) (by decide) hloads
  exact ⟨s₀, i, s, s', hfree, hrun, hok,
    read_segment (h := wordAt 5 0x10010) hfree hrun hok
      (by rw [hloads]; exact List.mem_singleton_self _) (by decide)⟩

/-- **Which images are placed as their headers say.** All of them if every header of the
    table is found, ends in its first page and loads faithfully; and a header that is found
    must load faithfully. -/
theorem segments_placed (hfree : FreeList s₀.phys (pagesDown P n))
    (hmade : allocProcess L s₀ = .ret i s) (hload : elfLoad f i s = .ret .elOk s') :
    ((∀ h ∈ f.tableLoads, h ∈ f.loads ∧ h.InPage ∧ LoadsFaithfully f h) →
        SegmentsPlaced f i s') ∧
      (SegmentsPlaced f i s' → ∀ h ∈ f.tableLoads, h ∈ f.loads → LoadsFaithfully f h) := by
  obtain ⟨-, tf, pt, ks, us, mi, fl, hm⟩ := Prog.wp_ret (allocProcess_made hfree) hmade
  have hread : ∀ h ∈ f.loads, ∀ k, h.vaddr.toNat % 4096 + k < 4096 →
      readByte s' i (h.vaddr + BitVec.ofNat 64 k) =
        if h.vaddr < MAXVA then some (segmentByte f h (h.vaddr.toNat % 4096 + k)) else none :=
    fun h hh k hk => hm.segment_byte hm.next_info (elfLoad_run hload) hh hk
  constructor
  · intro hall h hh k hk
    obtain ⟨hfound, hpage, hok⟩ := hall h hh
    have hend : h.vaddr.toNat % 4096 + k < 4096 := by
      unfold ElfProgHeader.InPage at hpage
      omega
    have hpos : h.memsz ≠ 0 := by
      rintro hzero
      rw [hzero] at hk
      exact absurd hk (Nat.not_lt_zero k)
    rw [hread h hfound k hend, if_pos (hok.low hpos), hok.bytes k hk hend]
  · intro hplaced h hh hfound
    have hbyte : ∀ k < h.memsz.toNat, h.vaddr.toNat % 4096 + k < 4096 → h.vaddr < MAXVA ∧
        segmentByte f h (h.vaddr.toNat % 4096 + k) = expectedByte f h k := by
      intro k hk hend
      have heq := (hread h hfound k hend).symm.trans (hplaced h hh k hk)
      split_ifs at heq with hlow
      exact ⟨hlow, Option.some.inj heq⟩
    refine ⟨fun hpos => (hbyte 0 ?_ (Nat.mod_lt _ (by decide))).1, fun k hk hend =>
      (hbyte k hk hend).2⟩
    exact Nat.pos_of_ne_zero fun hzero => hpos (BitVec.eq_of_toNat_eq hzero)

theorem segments_placed_sample : ∃ s₀ i s s', FreeList s₀.phys (pagesDown 0x80010 127) ∧
    allocProcess sampleLayout s₀ = .ret i s ∧
    elfLoad (elfWith [wordAt 5 0x10000]) i s = .ret .elOk s' ∧
    SegmentsPlaced (elfWith [wordAt 5 0x10000]) i s' := by
  have hloads : (elfWith [wordAt 5 0x10000]).loads = [wordAt 5 0x10000] := rfl
  have htable : (elfWith [wordAt 5 0x10000]).tableLoads = [wordAt 5 0x10000] := rfl
  obtain ⟨s₀, i, s, s', -, -, -, -, -, -, ⟨hfree, hrun, hok, -, -⟩⟩ :=
    sampleLoad_word (by decide) (by decide) hloads
  refine ⟨s₀, i, s, s', hfree, hrun, hok, (segments_placed hfree hrun hok).1 ?_⟩
  intro h hh
  rw [htable, List.mem_singleton] at hh
  subst hh
  refine ⟨by rw [hloads]; exact List.mem_singleton_self _, by decide, ?_⟩
  rw [loadsFaithfully_aligned rfl (by decide) (by decide)]
  intro k hfile hmem
  exact absurd hmem (Nat.not_lt.mpr hfile)

end Pke
