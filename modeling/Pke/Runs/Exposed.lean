import Pke.Runs.Ledger

/-!
# A process that can write a table of its own page table

When a page of a process is mapped to a table of its page table, the process can set the
entries of the table by stores. It makes itself an entry for the table of its user stack
and clears the entry of the stack there; then nothing is mapped between the heap and
`USER_STACK_TOP` (`Exposed.climbing`).
-/

namespace Pke

open Lib Radix

variable {L : Layout} {h : Host} {c : Pid} {s s' : Kernel} {fl : List Ppn} {led : MallocLedger}
  {q : Ppn} {u v : Vpn} {w : Word}

/-! ## An entry written byte by byte -/

/-- Setting byte `j` to that of `w` makes eight more bits agree. -/
theorem setByte_agrees {e w : Word} {j : ℕ} (hj : j < 8)
    (he : ∀ k < 8 * j, e.getLsbD k = w.getLsbD k) :
    ∀ k < 8 * (j + 1), (setByte e j (byteOf w j)).getLsbD k = w.getLsbD k := by
  intro k hk
  have h64 : k < 64 := by omega
  rw [setByte, byteOf, BitVec.getLsbD_or, BitVec.getLsbD_and, BitVec.getLsbD_not,
    BitVec.getLsbD_shiftLeft, BitVec.getLsbD_shiftLeft, BitVec.getLsbD_setWidth,
    BitVec.getLsbD_setWidth, BitVec.getLsbD_ushiftRight]
  rcases Nat.lt_or_ge k (8 * j) with hlt | hge
  · rw [he k hlt]
    simp [hlt, h64]
  · have hone : (0xFF#64).getLsbD (k - 8 * j) = true := by
      have : k - 8 * j < 8 := by omega
      interval_cases k - 8 * j <;> rfl
    have hsum : 8 * j + (k - 8 * j) = k := by omega
    have h8 : k - 8 * j < 8 := by omega
    rw [hone, hsum]
    simp [Nat.not_lt.mpr hge, h64, h8, h8.trans (show 8 < 64 by omega)]

theorem writeLeaf_self (s : Phys) (q : Ppn) (v : Vpn) :
    writeLeaf s q v (s.mem q (px 0 v)) = s := by
  have hmem : (writeLeaf s q v (s.mem q (px 0 v))).mem = s.mem := by
    rw [writeLeaf_mem, Function.update_eq_self, Function.update_eq_self]
  exact congrArg (fun m => { s with mem := m }) hmem

theorem writeLeaf_writeLeaf (s : Phys) (q : Ppn) (v : Vpn) (w w' : Word) :
    writeLeaf (writeLeaf s q v w) q v w' = writeLeaf s q v w' := by
  have hmem : (writeLeaf (writeLeaf s q v w) q v w').mem = (writeLeaf s q v w').mem := by
    rw [writeLeaf_mem, writeLeaf_mem, writeLeaf_mem, Function.update_idem, Function.update_self,
      Function.update_idem]
  exact congrArg (fun m => { s with mem := m }) hmem

/-- The address of byte `j` of the entry for `v`, when its table is mapped at `u`. -/
def entryByte (u v : Vpn) (j : ℕ) : Word :=
  BitVec.ofNat 64 (u.toNat * 4096 + (8 * (px 0 v).toNat + j))

theorem entryByte_toNat {j : ℕ} (hj : j < 8) :
    (entryByte u v j).toNat = u.toNat * 4096 + (8 * (px 0 v).toNat + j) := by
  have hu := u.isLt
  have hv := (px 0 v).isLt
  rw [entryByte, BitVec.toNat_ofNat]
  omega

/-- The byte as user code reaches it. -/
theorem userTranslate_entry {j : ℕ} {m : Mem} (pt : Word) (hu : u.toNat < 2 ^ 26)
    (hw : translate m (ppn pt) u = some w) (hperm : w &&& (PTE_U ||| PTE_W) = PTE_U ||| PTE_W)
    (hj : j < 8) : userTranslate m pt (entryByte u v j) PTE_W =
      some (addr (ptePpn w) + (entryByte u v j &&& 0xFFF#64)) := by
  have hN := entryByte_toNat (u := u) (v := v) hj
  have hidx := (px 0 v).isLt
  have hvpn : vpn (entryByte u v j) = u := by
    apply BitVec.eq_of_toNat_eq
    rw [vpn_toNat (by omega), hN]
    omega
  rw [userTranslate, if_pos (canonical_of_lt (by omega)), hvpn, hw, Option.bind_some,
    if_pos hperm, PTE2PA_eq]

/-- A store to a byte of the entry. -/
theorem userStore_entry {j : ℕ} (hcur : s.current = some c) (hu : u.toNat < 2 ^ 26)
    (hw : translate s.phys.mem (s.procs c).space.root u = some w)
    (hperm : w &&& (PTE_U ||| PTE_W) = PTE_U ||| PTE_W) (hj : j < 8) (b : BitVec 8) :
    userStore (entryByte u v j) b s = some { s with
      phys := writeLeaf s.phys (ptePpn w) v
        (setByte (s.phys.mem (ptePpn w) (px 0 v)) j b) } := by
  have hidx := (px 0 v).isLt
  have hoff : (entryByte u v j &&& 0xFFF#64).toNat = 8 * (px 0 v).toNat + j := by
    rw [BitVec.toNat_and, show (0xFFF#64).toNat = 2 ^ 12 - 1 from rfl,
      Nat.and_two_pow_sub_one_eq_mod, entryByte_toNat hj]
    omega
  have hpa := userTranslate_entry (v := v) (s.procs c).pagetable hu hw hperm hj
  generalize ptePpn w = q at *
  have hppn : ppn (addr q + (entryByte u v j &&& 0xFFF#64)) = q := ppn_addr_add _ (by omega)
  have hslot : idx (addr q + (entryByte u v j &&& 0xFFF#64)) = px 0 v := by
    apply BitVec.eq_of_toNat_eq
    rw [idx_toNat, BitVec.toNat_add, addr_toNat, hoff]
    have := q.isLt
    omega
  have hmod : (addr q + (entryByte u v j &&& 0xFFF#64)).toNat % 8 = j := by
    rw [BitVec.toNat_add, addr_toNat, hoff]
    omega
  have hmem : store8 s.phys.mem (addr q + (entryByte u v j &&& 0xFFF#64)) b =
      (writeLeaf s.phys q v (setByte (s.phys.mem q (px 0 v)) j b)).mem := by
    rw [store8, hmod, store64, load64, hppn, hslot, writeLeaf_mem]
    rfl
  rw [userStore, hcur, Option.bind_eq_bind, Option.bind_some, hpa, Option.bind_eq_bind,
    Option.bind_some, hmem]
  rfl

/-- Process `c` can write the table of the page `v` through its page `u`, whose entry
    is `w`. -/
structure TableWindow (c : Pid) (u v : Vpn) (w : Word) (s : Kernel) : Prop where
  current : s.current = some c
  forest : Forest ptePage s.phys.mem 2 {(s.procs c).space.root}
  node : nodeAt ptePage s.phys.mem (s.procs c).space.root (vpath 2 v) = some (ptePpn w)
  low : u.toNat < 2 ^ 26
  window : translate s.phys.mem (s.procs c).space.root u = some w
  perm : w &&& (PTE_U ||| PTE_W) = PTE_U ||| PTE_W
  ne : u ≠ v

/-- The window stays open when the entry is written. -/
theorem TableWindow.window_write (hx : TableWindow c u v w s) (e : Word) :
    translate (writeLeaf s.phys (ptePpn w) v e).mem (s.procs c).space.root u = some w := by
  rw [translate_writeLeaf hx.forest rfl hx.node e rfl, if_neg fun hsame => hx.ne hsame.2]
  exact hx.window

/-- The process sets the entry to any value: what eight stores to its bytes keep holds of the
    state with the new entry. -/
theorem TableWindow.write {R : Kernel → Prop} (hx : TableWindow c u v w s)
    (hstore : ∀ {s₁ s₂ j b}, s₁.current = some c → s₁.procs = s.procs →
      translate s₁.phys.mem (s.procs c).space.root u = some w → j < 8 → R s₁ →
      userStore (entryByte u v j) b s₁ = some s₂ → R s₂) (hr : R s) (e : Word) :
    R { s with phys := writeLeaf s.phys (ptePpn w) v e } := by
  have hbytes : ∀ j ≤ 8, ∃ e', (∀ k < 8 * j, e'.getLsbD k = e.getLsbD k) ∧
      R { s with phys := writeLeaf s.phys (ptePpn w) v e' } := by
    intro j
    induction j with
    | zero =>
      refine fun _ => ⟨s.phys.mem (ptePpn w) (px 0 v), fun k hk => by omega, ?_⟩
      rw [writeLeaf_self]
      exact hr
    | succ j ih =>
      intro hj
      obtain ⟨e', he', hr'⟩ := ih (by omega)
      refine ⟨_, setByte_agrees (by omega) he', ?_⟩
      have hstep := userStore_entry (v := v)
        (s := { s with phys := writeLeaf s.phys (ptePpn w) v e' }) hx.current hx.low
        (hx.window_write e') hx.perm (show j < 8 by omega) (byteOf e j)
      have hself : (writeLeaf s.phys (ptePpn w) v e').mem (ptePpn w) (px 0 v) = e' := by
        rw [writeLeaf_mem, Function.update_self, Function.update_self]
      dsimp only at hstep
      rw [hself, writeLeaf_writeLeaf] at hstep
      exact hstore (by exact hx.current) (by rfl) (by exact hx.window_write e') (by omega) hr' hstep
  obtain ⟨e', he', hr'⟩ := hbytes 8 le_rfl
  obtain rfl : e' = e := BitVec.eq_of_getLsbD_eq fun k hk => he' k (by omega)
  exact hr'

theorem MallocRun.entry (hr : MallocRun L h s led) (hx : TableWindow c u v w s) (e : Word) :
    MallocRun L h { s with phys := writeLeaf s.phys (ptePpn w) v e } led :=
  hx.write (R := fun s => MallocRun L h s led) (fun hcur _ _ _ hr hst =>
    hr.step hcur (fun t ht => by cases ht) (.store hst)) hr e

/-- An entry for neither the trapframe nor the trap section can be set. -/
theorem Served.entry (hs : Served L c s fl)
    (hq : nodeAt ptePage s.phys.mem (s.procs c).space.root (vpath 2 v) = some q)
    (hv : v ≠ vpn (s.procs c).trapframe ∧ v ≠ vpn L.trapSecStart) (e : Word) :
    Served L c { s with phys := writeLeaf s.phys q v e } fl := by
  have hpages : tablePages (writeLeaf s.phys q v e).mem {(s.procs c).space.root} =
      tablePages s.phys.mem {(s.procs c).space.root} :=
    hs.tables.forest.nodes_write rfl hq (vpath_length 2 v) fun _ hp => writeLeaf_of_ne hp e
  have hleaf : ∀ v', v' ≠ v → translate (writeLeaf s.phys q v e).mem (s.procs c).space.root v' =
      translate s.phys.mem (s.procs c).space.root v' := fun v' hv' => by
    rw [translate_writeLeaf hs.tables.forest rfl hq e rfl, if_neg fun hsame => hv' hsame.2]
  refine ⟨hs.aligned, hs.low, (hs.tables.grow_writeLeaf rfl hq e).tables, hs.managed, hs.base,
    (hleaf _ hv.1.symm).trans hs.trapframe, (hleaf _ hv.2.symm).trans hs.trapSec, hs.apart.1, ?_⟩
  show _ ∉ tablePages (writeLeaf s.phys q v e).mem _
  rw [hpages]
  exact hs.apart.2

/-- The entry for `v` in the page table of process `c` was set to `e`. -/
structure EntrySet (c : Pid) (v : Vpn) (e : Word) (s s' : Kernel) : Prop where
  procs : s'.procs = s.procs
  heap : s'.gUfreePage = s.gUfreePage
  nodes : ∀ π : List Idx, π.length ≤ 2 →
    nodeAt ptePage s'.phys.mem (s.procs c).space.root π =
      nodeAt ptePage s.phys.mem (s.procs c).space.root π
  leaf : ∀ v', translate s'.phys.mem (s.procs c).space.root v' =
    if v' = v then (if e &&& PTE_V ≠ 0 then some e else none)
    else translate s.phys.mem (s.procs c).space.root v'

/-- Process `c` sets the entry for `v`, whose table it maps at `u`. -/
theorem MallocRun.set_entry (hr : MallocRun L h s led) (hs : Served L c s fl) {Q : List Pid}
    (hsched : SchedInv s c Q) (hu : u.toNat < 2 ^ 26)
    (hw : translate s.phys.mem (s.procs c).space.root u = some w)
    (hperm : w &&& (PTE_U ||| PTE_W) = PTE_U ||| PTE_W)
    (hq : nodeAt ptePage s.phys.mem (s.procs c).space.root (vpath 2 v) = some (ptePpn w))
    (huv : u ≠ v) (hv : v ≠ vpn (s.procs c).trapframe ∧ v ≠ vpn L.trapSecStart) (e : Word) :
    ∃ s', MallocRun L h s' led ∧ Served L c s' fl ∧ SchedInv s' c Q ∧ EntrySet c v e s s' := by
  refine ⟨_, hr.entry ⟨hsched.current, hs.tables.forest, hq, hu, hw, hperm, huv⟩ e,
    hs.entry hq hv e, hsched.store, rfl, rfl,
    fun π hπ => writeLeaf_nodeAt hs.tables.forest rfl hq e rfl hπ, fun v' => ?_⟩
  refine (translate_writeLeaf hs.tables.forest rfl hq e rfl v').trans ?_
  simp only [true_and]

/-! ## Unmapping the stack -/

/-- Process `c` maps the table of the pages from `KERN_BASE` on at the page `u`, and its heap
    is as at the start. -/
structure Exposed (L : Layout) (c : Pid) (u : Vpn) (s : Kernel) (fl : List Ppn) : Prop where
  served : Served L c s fl
  length : heapPaths.card < fl.length
  trapframe : 2 ^ 31 + 4096 ≤ (s.procs c).trapframe.toNat
  trapSec : 2 ^ 31 + 4096 ≤ L.trapSecStart.toNat
  heap : s.gUfreePage = USER_FREE_ADDRESS_START
  low : u.toNat < 0x400
  unmapped : ∀ v : Vpn, 0x400 ≤ v.toNat → v.toNat < 0x7fffe →
    translate s.phys.mem (s.procs c).space.root v = none
  stack : ∃ q, nodeAt ptePage s.phys.mem (s.procs c).space.root (vpath 2 stackVpn) = some q
  table : ∃ q, nodeAt ptePage s.phys.mem (s.procs c).space.root (vpath 2 (vpnOf 0x80000)) = some q ∧
    translate s.phys.mem (s.procs c).space.root u = some (mkPte (addr q) elfPerm)

theorem Exposed.congr (hx : Exposed L c u s fl) (hphys : s'.phys = s.phys)
    (hspace : (s'.procs c).space = (s.procs c).space) (hheap : s'.gUfreePage = s.gUfreePage) :
    Exposed L c u s' fl := by
  have htf : (s'.procs c).trapframe = (s.procs c).trapframe := congrArg AddrSpace.trapframe hspace
  refine ⟨hx.served.congr hphys hspace, hx.length, ?_, hx.trapSec, hheap.trans hx.heap, hx.low, ?_,
    ?_, ?_⟩
  · rw [htf]
    exact hx.trapframe
  all_goals rw [hphys, hspace]
  · exact hx.unmapped
  · exact hx.stack
  · exact hx.table

theorem Exposed.frame (hx : Exposed L c u s fl) (hf : FrameOnly c s s') : Exposed L c u s' fl := by
  have htrans := hx.served.frame_translate hf
  have hnode : ∀ (π : List Idx), π.length ≤ 2 →
      nodeAt ptePage s'.phys.mem (s.procs c).space.root π =
        nodeAt ptePage s.phys.mem (s.procs c).space.root π := fun π hπ =>
    nodeAt_congr (Set.mem_singleton _) (hx.served.frame_tables hf) π (hπ.trans (by omega))
  obtain ⟨qs, hqs⟩ := hx.stack
  obtain ⟨q, hq, hu⟩ := hx.table
  refine ⟨hx.served.frame hf, hx.length, ?_, hx.trapSec, hf.heap.trans hx.heap, hx.low, ?_,
    ⟨qs, ?_⟩, ⟨q, ?_, ?_⟩⟩
  all_goals rw [hf.procs]
  · exact hx.trapframe
  · exact fun v hlo hhi => (htrans v).trans (hx.unmapped v hlo hhi)
  · exact (hnode _ (vpath_length 2 _).le).trans hqs
  · exact (hnode _ (vpath_length 2 _).le).trans hq
  · exact (htrans u).trans hu

/-- **The stack is unmapped** by stores. -/
theorem Exposed.climbing (hx : Exposed L c u s fl) (hsched : ∃ Q, SchedInv s c Q)
    (hr : MallocRun L h s led) : ∃ s', MallocRun L h s' led ∧ Climbing L c 0 s' := by
  obtain ⟨Q, hsched⟩ := hsched
  have hs := hx.served
  have hlow := hs.low
  have htf := hx.trapframe
  have hts := hx.trapSec
  have hul := hx.low
  obtain ⟨qs, hqs⟩ := hx.stack
  obtain ⟨q, hq, hu⟩ := hx.table
  have hstackN : stackVpn.toNat = 0x7fffe := by decide
  have hwinN : (vpnOf 0x80000).toNat = 0x80000 := by decide
  have hpage : ∀ a : Word, 2 ^ 31 + 4096 ≤ a.toNat → a.toNat < 2 ^ 38 →
      ∀ v : Vpn, v.toNat ≤ 0x80000 → v ≠ vpn a := fun a hlo hhi v hv heq => by
    rw [heq, vpn_toNat (by omega)] at hv
    omega
  -- an entry for the table of the stack, at the page 0x80000
  obtain ⟨s₁, hr₁, hs₁, hsched₁, h₁⟩ := hr.set_entry (v := vpnOf 0x80000) hs hsched (by omega) hu
    (by rw [mkPte_and_flag _ _ (by decide)]; decide) (by rw [elf_leaf_ppn]; exact hq)
    (fun heq => by rw [heq] at hul; omega)
    ⟨hpage _ htf hlow.1 _ hwinN.le, hpage _ hts hlow.2 _ hwinN.le⟩ (mkPte (addr qs) userDataPerm)
  have hwin : translate s₁.phys.mem (s₁.procs c).space.root (vpnOf 0x80000) =
      some (mkPte (addr qs) userDataPerm) := by
    rw [h₁.procs, h₁.leaf, if_pos rfl, if_pos]
    rw [mkPte_and_flag _ _ (by decide)]
    decide
  -- there the entry of the stack is cleared
  obtain ⟨s₂, hr₂, hs₂, hsched₂, h₂⟩ := hr₁.set_entry (v := stackVpn) hs₁ hsched₁ (by omega) hwin
    (by rw [mkPte_and_flag _ _ (by decide)]; decide)
    (by rw [h₁.procs, h₁.nodes _ (vpath_length 2 _).le, ptePpn_mkPte _ (by decide), ppn_addr]
        exact hqs)
    (fun heq => by rw [heq] at hwinN; omega)
    (by rw [h₁.procs]; exact ⟨hpage _ htf hlow.1 _ (by omega), hpage _ hts hlow.2 _ (by omega)⟩) 0
  refine ⟨s₂, hr₂, ⟨Q, hsched₂⟩, ⟨fl, hs₂, ?_⟩, ?_, ?_, fun v hlo hhi => ?_⟩
  · exact (Finset.card_filter_le _ _).trans_lt hx.length
  · rw [h₂.procs, h₁.procs]
    omega
  · rw [h₂.heap, h₁.heap, hx.heap]
    decide
  · have hleaf₂ := h₂.leaf v
    rw [h₁.procs] at hleaf₂
    rw [h₂.procs, h₁.procs, hleaf₂]
    split_ifs with hv hV
    · exact absurd hV (by decide)
    · rfl
    · rw [h₁.leaf, if_neg fun heq => by rw [heq] at hhi; omega]
      refine hx.unmapped v (by omega) (lt_of_le_of_ne hhi fun heq => hv ?_)
      exact BitVec.eq_of_toNat_eq (heq.trans hstackN.symm)

end Pke
