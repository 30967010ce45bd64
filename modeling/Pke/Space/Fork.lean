import Pke.Space.Setup

/-!
# Copying the memory of a process

`do_fork` walks over the regions of the parent: it copies the trapframe, the
stack and the data pages into pages of the child, and maps the code pages of the
parent into the child. Only this last step lets two processes share a frame.
-/

namespace Pke

open Lib Radix

variable {iso : Prop} {L : Layout} {V : View} {P : Set Pid} {fl fl' : List Ppn}
  {parent child : Pid} {s s' s'' : Kernel} {ph : Phys}

/-! ## Lookups and copies -/

theorem lookupAnswer_cases (m : Mem) (r : Ppn) (va : Word) :
    lookupAnswer m r va = 0 ∨
      ∃ w, translate m r (vpn va) = some w ∧ lookupAnswer m r va = addr (ptePpn w) := by
  unfold lookupAnswer absTable
  split_ifs with hva
  · exact Or.inl rfl
  · cases ht : translate m r (vpn va) with
    | none => exact Or.inl rfl
    | some w =>
      dsimp only [Option.map_some]
      split_ifs
      · exact Or.inl rfl
      · exact Or.inr ⟨w, rfl, PTE2PA_eq w⟩

/-- The page of a user mapping may be written by the kernel. -/
theorem Space.writeSpare (h : Space iso L V ph fl) {f : Ppn} (hf : V.Spare ph fl f) {m : Mem}
    (hm : ∀ q, q ≠ f → m q = ph.mem q) : Space iso L V { ph with mem := m } fl :=
  h.write hm hf.free hf.table fun i hi => hf.own i (h.ready_sub hi) .info

/-- What lies outside the kernel mappings is a user mapping. -/
theorem Space.user_of_ne (h : Space iso L V ph fl) {i : Pid} (hi : i ∈ V.all) {v : Vpn} {w : Word}
    (hw : V.leaf ph i v = some w) (htf : v ≠ vpn (V.procs i).trapframe)
    (hts : v ≠ vpn L.trapSecStart) : V.Spare ph fl (ptePpn w) ∧ w &&& PTE_U ≠ 0 := by
  have hU : w &&& PTE_U ≠ 0 := by
    intro hU
    rcases h.kernel i hi v w hw hU with ⟨rfl, -⟩ | ⟨rfl, -⟩
    · exact htf rfl
    · exact hts rfl
  exact ⟨h.user i hi v w hw hU, hU⟩

/-- `lookup_pa` on a page that can be read or written. -/
theorem lookupAnswer_readable {m : Mem} {r : Ppn} {va w : Word} (hva : va < MAXVA)
    (hw : translate m r (vpn va) = some w) (hRW : w &&& PTE_R ≠ 0 ∨ w &&& PTE_W ≠ 0) :
    lookupAnswer m r va = addr (ptePpn w) := by
  rw [lookupAnswer, if_neg (BitVec.not_le.mpr hva), absTable, hw]
  dsimp only [Option.map_some]
  rw [if_neg, PTE2PA_eq]
  rw [flags_and_flag w (by decide), flags_and_flag w (by decide)]
  exact fun hno => hRW.elim (fun h => h hno.1) fun h => h hno.2

theorem physMemcpy_eq {d q : Ppn} (hd : d ≠ 0) (hq : q ≠ 0) (len : ℕ) (ph : Phys) :
    physMemcpy (addr d) (addr q) len ph =
      .ret () { ph with mem := memcpy ph.mem (addr d) (addr q) len } := by
  rw [physMemcpy, if_neg]
  · rfl
  · rw [addr_eq_zero, addr_eq_zero]
    exact not_or.mpr ⟨hd, hq⟩

theorem physMemcpy_null {a b : Word} (h : a = 0 ∨ b = 0) (len : ℕ) (ph : Phys) :
    physMemcpy a b len ph = .halt .fault := by
  rw [physMemcpy, if_pos h]
  rfl

theorem lookupPa_space (h : Space iso L V ph fl) {i : Pid} (hi : i ∈ V.all) (va : Word) :
    lookupPa (V.procs i).pagetable va ph =
      .ret (lookupAnswer ph.mem (V.procs i).root va) ph := by
  rw [← (h.aligned i hi).pagetable]
  exact lookupPa_eq h.tables (View.root_mem hi) va

theorem wp_lookupPa {β : Type} {R : β → Kernel → Prop} {E : Kernel → Prop} {H : Halt → Prop}
    (h : Space iso L (s.view P P) s.phys fl) {i : Pid} (hi : i ∈ P) {va : Word}
    {k : Word → KernelM β}
    (hk : Prog.wp (k (lookupAnswer s.phys.mem (s.procs i).space.root va)) R E H s) :
    Prog.wp (onPhys (lookupPa (s.procs i).pagetable va) >>= k) R E H s := by
  rw [Prog.wp_bind, wp_onPhys]
  exact (Prog.wp_of_ret (lookupPa_space h hi va)).mpr hk

/-! ## One region -/

/-- While `child` gets the memory of `parent`: the other processes and the list of
    regions of the parent are as before, and no entry is removed. -/
structure Forking (P : Set Pid) (parent child : Pid) (s s' : Kernel) : Prop where
  rest : s' = { s with phys := s'.phys, procs := s'.procs, console := s'.console }
  procs : ∀ j, j ≠ child → s'.procs j = s.procs j
  self : s'.procs child =
    { s.procs child with totalMappedRegion := (s'.procs child).totalMappedRegion }
  info : s'.phys.mem ((s.procs parent).space.own .info) =
    s.phys.mem ((s.procs parent).space.own .info)
  mono : ∀ j ∈ P, ∀ v w, translate s.phys.mem (s.procs j).space.root v = some w →
    translate s'.phys.mem (s.procs j).space.root v = some w
  others : ∀ j ∈ P, j ≠ child → ∀ v, translate s'.phys.mem (s.procs j).space.root v =
    translate s.phys.mem (s.procs j).space.root v

theorem Forking.refl (P : Set Pid) (parent child : Pid) (s : Kernel) :
    Forking P parent child s s :=
  ⟨rfl, fun _ _ => rfl, rfl, rfl, fun _ _ _ _ h => h, fun _ _ _ _ => rfl⟩

theorem Forking.space_eq (h : Forking P parent child s s') (j : Pid) :
    (s'.procs j).space = (s.procs j).space := by
  by_cases hj : j = child
  · subst hj
    rw [h.self]
    rfl
  · rw [h.procs j hj]

theorem Forking.trans (h : Forking P parent child s s') (h' : Forking P parent child s' s'') :
    Forking P parent child s s'' := by
  have hs := h.space_eq
  refine ⟨?_, fun j hj => (h'.procs j hj).trans (h.procs j hj), ?_, ?_, ?_, ?_⟩
  · have h1 := h.rest
    have h2 := h'.rest
    rw [h1] at h2
    exact h2
  · have h1 := h.self
    have h2 := h'.self
    rw [h1] at h2
    exact h2
  · have h2 := h'.info
    rw [hs parent] at h2
    exact h2.trans h.info
  · intro j hj v w hw
    have h2 := h'.mono j hj v w
    rw [hs j] at h2
    exact h2 (h.mono j hj v w hw)
  · intro j hj hne v
    have h2 := h'.others j hj hne v
    rw [hs j] at h2
    exact h2.trans (h.others j hj hne v)

/-- Only memory was written, outside the tables and the region list of the parent. -/
theorem Forking.of_write {p : Ppn} {m : Mem} (hm : ∀ q, q ≠ p → m q = s.phys.mem q)
    (htab : p ∉ tablePages s.phys.mem (s.view P P).roots)
    (hinfo : p ≠ (s.procs parent).space.own .info) :
    Forking P parent child s { s with phys := { s.phys with mem := m } } where
  rest := rfl
  procs _ _ := rfl
  self := rfl
  info := hm _ hinfo.symm
  mono _ hj v _ hw := (leaf_write (V := s.view P P) hm htab hj v).trans hw
  others _ hj _ v := leaf_write (V := s.view P P) hm htab hj v

/-- One entry was added to the table of the child. -/
theorem Forking.of_map (h : Space iso L (s.view P P) s.phys fl) (hp : parent ∈ P) (hc : child ∈ P)
    (hs : PhysOnly s s') {v : Vpn} {w : Word}
    (hmap : MapOne (s.view P P).roots (s.procs child).space.root v w s.phys fl s'.phys fl')
    (h' : Space iso L (s.view P P) s'.phys fl') : Forking P parent child s s' := by
  refine ⟨?_, fun j _ => by rw [hs.procs], by rw [hs.procs], ?_, fun j hj v' w' hw' => ?_,
    fun j hj hne v' => ?_⟩
  · unfold PhysOnly at hs
    generalize s'.phys = ph' at hs
    subst hs
    rfl
  · exact hmap.grow.frame _ (h'.own_apart parent hp .info).2.1
  · refine (h.leaf_mapOne hc hmap hj v').trans ?_
    rw [if_neg]
    · exact hw'
    · rintro ⟨rfl, rfl⟩
      rw [hmap.unmapped] at hw'
      cases hw'
  · refine (h.leaf_mapOne hc hmap hj v').trans (if_neg fun hjc => hne hjc.1)

/-- The view after a region was recorded for process `i`. -/
theorem view_setTotal (s : Kernel) (P : Set Pid) (i : Pid) (n : ℕ) (ph : Phys) (c : List Msg) :
    Kernel.view { s with
      phys := ph
      procs := Function.update s.procs i { s.procs i with totalMappedRegion := n }
      console := c } P P = (s.view P P).setTotal i n := by
  unfold Kernel.view View.setTotal
  congr 1
  · funext j
    by_cases hj : j = i
    · subst hj
      simp [Process.space]
    · simp [hj]
  · funext j
    by_cases hj : j = i
    · subst hj
      simp
    · simp [hj]

/-- The region list of the child was written. -/
theorem Forking.of_info (h : Space iso L (s.view P P) s.phys fl) (hp : parent ∈ P) (hc : child ∈ P)
    (hne : parent ≠ child) {m : Mem} (n : ℕ) (c : List Msg)
    (hm : ∀ q, q ≠ (s.procs child).space.own .info → m q = s.phys.mem q) :
    Forking P parent child s { s with
      phys := { s.phys with mem := m }
      procs := Function.update s.procs child { s.procs child with totalMappedRegion := n }
      console := c } := by
  obtain ⟨-, htab, -⟩ := h.own_apart child hc .info
  refine ⟨rfl, fun j hj => Function.update_of_ne hj _ _, by simp, hm _ fun heq => hne ?_,
    fun j hj v w hw => (leaf_write (V := s.view P P) hm htab hj v).trans hw,
    fun j hj _ v => leaf_write (V := s.view P P) hm htab hj v⟩
  exact (h.own_inj parent hp child hc .info .info heq).1

/-- Process `i` has a region of code. -/
def Kernel.HasCode (s : Kernel) (i : Pid) : Prop :=
  ∃ k < (s.procs i).totalMappedRegion, regionSeg s.phys.mem (s.procs i).space k = some .CODE

/-- The address at which a child gets region `k` of the process. -/
def regionTarget (m : Mem) (a : AddrSpace) (k : ℕ) : Option Word :=
  match regionSeg m a k with
  | some .STACK | some .CODE => some (regionVa m a k)
  | some .DATA => some (asInt (regionVa m a k))
  | some .CONTEXT | some .SYSTEM | none => none

/-- From `s` to `s'` the child got the page `v` for user mode, with the contents of
    that page of the parent if it has one, and with the same frame if `shared`. -/
def Copied (parent child : Pid) (shared : Prop) (v : Vpn) (s s' : Kernel) : Prop :=
  ∃ w', translate s'.phys.mem (s.procs child).space.root v = some w' ∧ w' &&& PTE_U ≠ 0 ∧
    ∀ w, translate s.phys.mem (s.procs parent).space.root v = some w → w &&& PTE_U ≠ 0 →
      s'.phys.mem (ptePpn w') = s.phys.mem (ptePpn w) ∧ (shared → ptePpn w' = ptePpn w)

/-- Region `k` of the process is code. -/
abbrev CodeRegion (s : Kernel) (i : Pid) (k : ℕ) : Prop :=
  regionSeg s.phys.mem (s.procs i).space k = some .CODE

/-- The loop of `do_fork` may write the page `q` of the child in region `k`: its
    stack in region 0 and its trapframe in region 1. -/
def ForkTarget (child : Pid) (k : ℕ) (s : Kernel) (q : Ppn) : Prop :=
  (k = 0 ∧ ∃ w, translate s.phys.mem (s.procs child).space.root stackVpn = some w ∧
    q = ptePpn w) ∨
  (k = 1 ∧ q = (s.procs child).space.own .trapframe)

/-- Every region of the child in `s'` is one it had in `s`, or region `k` of the
    parent. -/
def TargetsFrom (parent child : Pid) (k : ℕ) (s s' : Kernel) : Prop :=
  ∀ j va, j < (s'.procs child).totalMappedRegion →
    regionTarget s'.phys.mem (s.procs child).space j = some va →
    j < (s.procs child).totalMappedRegion ∧
      regionTarget s.phys.mem (s.procs child).space j = some va ∨
    regionTarget s.phys.mem (s.procs parent).space k = some va

/-- The page `q` was free or a table, so it was no frame of a process. -/
abbrev FreshFrame (P : Set Pid) (s : Kernel) (fl : List Ppn) (q : Ppn) : Prop :=
  q ∈ fl ∨ q ∈ tablePages s.phys.mem (s.view P P).roots

/-- The outcome of the loop of `do_fork` for region `k`. -/
structure ForkedRegion (iso : Prop) (L : Layout) (P : Set Pid) (parent child : Pid) (k : ℕ)
    (s : Kernel) (fl : List Ppn) (s' : Kernel) (fl' : List Ppn) : Prop where
  space : Space iso L (s'.view P P) s'.phys fl'
  forking : Forking P parent child s s'
  total : (s'.procs child).totalMappedRegion ≤ max 3 (k + 1)
  length : fl.length ≤ fl'.length + 3
  copied : ∀ va, regionTarget s.phys.mem (s.procs parent).space k = some va →
    Copied parent child (CodeRegion s parent k) (vpn va) s s'
  new : ∀ v w, translate s'.phys.mem (s.procs child).space.root v = some w →
    translate s.phys.mem (s.procs child).space.root v = some w ∨
      ∃ va, regionTarget s.phys.mem (s.procs parent).space k = some va ∧ v = vpn va ∧
        (CodeRegion s parent k ∨ FreshFrame P s fl (ptePpn w))
  frame : ∀ q, q ∉ fl → q ∉ tablePages s.phys.mem (s.view P P).roots →
    q ≠ (s.procs child).space.own .info → ¬ ForkTarget child k s q →
    s'.phys.mem q = s.phys.mem q
  sub : ∀ p, p ∈ fl' ∨ p ∈ tablePages s'.phys.mem (s.view P P).roots →
    p ∈ fl ∨ p ∈ tablePages s.phys.mem (s.view P P).roots
  context : k = 1 → ∀ o : Idx, o.toNat < sizeofTrapframe / 8 →
    s'.phys.mem ((s.procs child).space.own .trapframe) o =
      s.phys.mem ((s.procs parent).space.own .trapframe) o
  targets : TargetsFrom parent child k s s'

theorem regionTarget_congr {a : AddrSpace} (ha : a.Aligned) {m m' : Mem}
    (hm : m' (a.own .info) = m (a.own .info)) {j : ℕ} (hj : j < 256) :
    regionTarget m' a j = regionTarget m a j := by
  unfold regionTarget regionSeg
  rw [regionVa_congr ha hm hj, regionSecond_congr ha hm hj]

theorem regionTarget_recordRegion {m : Mem} {a : AddrSpace} {va : Word} {npages : BitVec 32}
    {j k : ℕ} (hj : j < 256) (hk : k < 256) :
    regionTarget (recordRegion m a j va npages .CODE) a k =
      if k = j then some va else regionTarget m a k := by
  rw [regionTarget, regionSeg_recordRegion hj hk, regionVa_recordRegion hj hk]
  split_ifs with h
  · rfl
  · rfl

/-- A region for which one page of the child is written. -/
theorem ForkedRegion.of_write {k : ℕ} {p : Ppn} {m : Mem}
    (h : Space iso L (s.view P P) s.phys fl) (hp : parent ∈ P) (hc : child ∈ P)
    (hm : ∀ q, q ≠ p → m q = s.phys.mem q) (hfl : p ∉ fl)
    (htab : p ∉ tablePages s.phys.mem (s.view P P).roots)
    (hinfo : ∀ i ∈ P, p ≠ (s.procs i).space.own .info) (htarget : ForkTarget child k s p)
    (htotal : (s.procs child).totalMappedRegion ≤ 3)
    (hcopied : ∀ va, regionTarget s.phys.mem (s.procs parent).space k = some va →
      Copied parent child (CodeRegion s parent k) (vpn va) s
        { s with phys := { s.phys with mem := m } })
    (hcontext : k = 1 → ∀ o : Idx, o.toNat < sizeofTrapframe / 8 →
      m ((s.procs child).space.own .trapframe) o =
        s.phys.mem ((s.procs parent).space.own .trapframe) o) :
    ForkedRegion iso L P parent child k s fl { s with phys := { s.phys with mem := m } } fl where
  space := h.write hm hfl htab hinfo
  forking := Forking.of_write hm htab (hinfo parent hp)
  total := htotal.trans (le_max_left _ _)
  length := by omega
  copied := hcopied
  new v w hw := Or.inl ((leaf_write (V := s.view P P) hm htab hc v).symm.trans hw)
  frame q _ _ _ hq := hm q (by rintro rfl; exact hq htarget)
  sub := (h.evolves_write hm hfl htab hinfo).sub
  context := hcontext
  targets j va hj hva := by
    have hj' : j < (s.procs child).totalMappedRegion := hj
    refine Or.inl ⟨hj', ?_⟩
    rwa [regionTarget_congr (a := (s.procs child).space) (h.aligned child hc)
      (hm _ (hinfo child hc).symm) (by omega)] at hva

/-- The code looks at the type of the region. -/
theorem wp_forkRegion {k : ℕ} {R : Unit → Kernel → Prop} {E : Kernel → Prop} {H : Halt → Prop}
    {seg : SegType} (hseg : regionSeg s.phys.mem (s.procs parent).space k = some seg)
    (hwp : Prog.wp (match seg with
      | .CONTEXT => onPhys (physMemcpy (s.procs child).trapframe (s.procs parent).trapframe
          sizeofTrapframe)
      | .STACK => do
        let childVa ← onPhys (load (regionAddr (s.procs child).mappedInfo 0))
        let dest ← onPhys (lookupPa (s.procs child).pagetable childVa)
        let src ← onPhys (lookupPa (s.procs parent).pagetable
          (regionVa s.phys.mem (s.procs parent).space k))
        onPhys (physMemcpy dest src 4096)
      | .DATA => do
        onPhys (store (regionAddr (s.procs child).mappedInfo k)
          (regionVa s.phys.mem (s.procs parent).space k))
        onPhys (forkData (s.procs parent).pagetable (s.procs child).pagetable
          (regionVa s.phys.mem (s.procs parent).space k)
          (List.range (regionPages s.phys.mem (s.procs parent).space k).toNat))
      | .CODE => do
        let va := regionVa s.phys.mem (s.procs parent).space k
        let pa ← onPhys (lookupPa (s.procs parent).pagetable va)
        onPhys (userVmMap (s.procs child).pagetable (va &&& ~~~0xFFF#64) PGSIZE pa
          (protToType (PROT_EXEC ||| PROT_READ) 1))
        let pa ← onPhys (lookupPa (s.procs parent).pagetable va)
        sprint (.text "do_fork map code segment at pa:%lx of parent to child at va:%lx.\n"
          [pa, va &&& ~~~0xFFF#64])
        onPhys (storeRegion (regionAddr (s.procs child).mappedInfo
          (s.procs child).totalMappedRegion) va
          (regionPages s.phys.mem (s.procs parent).space k) .CODE)
        setProc child fun c => { c with totalMappedRegion := c.totalMappedRegion + 1 }
      | .SYSTEM => return) R E H s) :
    Prog.wp (forkRegion parent child k) R E H s := by
  unfold forkRegion
  rw [proc, Prog.wp_bind, Prog.wp_gets, proc, Prog.wp_bind, Prog.wp_gets, Prog.wp_bind, wp_onPhys,
    load, Prog.wp_gets, Prog.wp_bind, wp_onPhys, load, Prog.wp_gets]
  unfold regionSeg at hseg
  rw [show load64 s.phys.mem (regionAddr (s.procs parent).mappedInfo k + 8) =
    regionSecond s.phys.mem (s.procs parent).space k from rfl, hseg]
  cases seg <;> exact hwp

/-! ## A page of data -/

theorem asInt_aligned {a : Word} (h : a % PGSIZE = 0) : asInt a % PGSIZE = 0 := by
  have h' : a.toNat % 4096 = 0 := by simpa [PGSIZE] using congrArg BitVec.toNat h
  apply BitVec.eq_of_toNat_eq
  rw [BitVec.toNat_umod, asInt, BitVec.toNat_signExtend, BitVec.toNat_setWidth]
  rw [BitVec.toNat_setWidth, show PGSIZE.toNat = 4096 from rfl]
  show _ = 0
  split_ifs <;> omega

theorem regionVa_store_va {m : Mem} {a : AddrSpace} {j k : ℕ} (hjk : j < k) (hk : k < 256)
    (va : Word) :
    regionVa (store64 m (regionAddr a.mappedInfo k) va) a j = regionVa m a j := by
  rw [regionVa, regionAddr_eq, regionAddr_eq, load_dword_store _ _ _ (by omega) (by omega),
    if_neg (by omega), regionVa, regionAddr_eq]

theorem regionSecond_store_va {m : Mem} {a : AddrSpace} {j k : ℕ} (hj : j < 256) (hk : k < 256)
    (va : Word) :
    regionSecond (store64 m (regionAddr a.mappedInfo k) va) a j = regionSecond m a j := by
  rw [regionSecond, regionAddr_add_eq, regionAddr_eq, load_dword_store _ _ _ (by omega) (by omega),
    if_neg (by omega), regionSecond, regionAddr_add_eq]

theorem regionTarget_store_va {m : Mem} {a : AddrSpace} {j k : ℕ} (hjk : j < k) (hj : j < 256)
    (hk : k < 256) (va : Word) :
    regionTarget (store64 m (regionAddr a.mappedInfo k) va) a j = regionTarget m a j := by
  rw [regionTarget, regionSeg, regionSecond_store_va hj hk, regionVa_store_va hjk hk]
  rfl

/-- The entry behind the list of regions may be written. -/
theorem Regions.store_va {m : Mem} {a : AddrSpace} {n k : ℕ} (h : Regions L m a n) (hn : n ≤ k)
    (hk : k < 256) (va : Word) : Regions L (store64 m (regionAddr a.mappedInfo k) va) a n := by
  have hlo := h.lo
  have hva : ∀ j < n, regionVa (store64 m (regionAddr a.mappedInfo k) va) a j = regionVa m a j :=
    fun j hj => regionVa_store_va (by omega) hk va
  have hsec : ∀ j < n,
      regionSecond (store64 m (regionAddr a.mappedInfo k) va) a j = regionSecond m a j :=
    fun j hj => regionSecond_store_va (by omega) hk va
  have hseg : ∀ j < n,
      regionSeg (store64 m (regionAddr a.mappedInfo k) va) a j = regionSeg m a j := fun j hj => by
    rw [regionSeg, hsec j hj, regionSeg]
  refine ⟨h.lo, h.hi, ?_, ?_, ?_, fun j h3 hj => ?_⟩
  · rw [hva 0 (by omega), hseg 0 (by omega)]
    exact h.stack
  · rw [hva 1 (by omega), hseg 1 (by omega)]
    exact h.context
  · rw [hva 2 (by omega), hseg 2 (by omega)]
    exact h.system
  · rw [RegionOk, hva j hj, hseg j hj, regionPages, hsec j hj]
    exact h.rest j h3 hj

/-- The page of data at `va` was copied to a fresh page, which is mapped in the
    child. -/
structure DataCopied (iso : Prop) (L : Layout) (V : View) (parent child : Pid) (va : Word)
    (ph : Phys) (fl : List Ppn) (ph' : Phys) (fl' : List Ppn) : Prop where
  space : Space iso L V ph' fl'
  unmapped : V.leaf ph child (vpn va) = none
  leaf : ∃ p w, p ∈ fl ∧ V.leaf ph parent (vpn va) = some w ∧ ph'.mem p = ph.mem (ptePpn w) ∧
    ∀ j ∈ V.all, ∀ v, V.leaf ph' j v =
      if j = child ∧ v = vpn va then some (mkPte (addr p) userDataPerm) else V.leaf ph j v
  frame : ∀ q, q ∉ fl → q ∉ tablePages ph.mem V.roots → ph'.mem q = ph.mem q
  sub : ∀ p, p ∈ fl' ∨ p ∈ tablePages ph'.mem V.roots → p ∈ fl ∨ p ∈ tablePages ph.mem V.roots
  length : fl.length ≤ fl'.length + 3

/-- Growing tables writes new tables and old ones only. -/
theorem Grow.frame_old {R : Set Ppn} {ph' : Phys} (hg : Grow R ph fl ph' fl') {q : Ppn}
    (hfl : q ∉ fl) (htab : q ∉ tablePages ph.mem R) : ph'.mem q = ph.mem q := by
  refine hg.frame q fun hq => ?_
  obtain ⟨new, hnew, hpages⟩ := hg.popped
  rw [hpages] at hq
  rcases hq with hq | hq
  · exact htab hq
  · exact hfl (hnew ▸ List.mem_append_left _ hq)

theorem forkData_space (h : Space iso L V ph fl) (hp : parent ∈ V.all) (hc : child ∈ V.all)
    {va : Word} (hva : va % PGSIZE = 0) :
    Prog.wp (forkData (V.procs parent).pagetable (V.procs child).pagetable va [0])
      (fun _ ph' => ∃ fl', DataCopied iso L V parent child (asInt va) ph fl ph' fl')
      (fun _ => False)
      (fun _ => ¬ (asInt va < MAXVA ∧ V.leaf ph child (vpn (asInt va)) = none ∧
        lookupAnswer ph.mem (V.procs parent).root (asInt va) ≠ 0 ∧ 3 ≤ fl.length)) ph := by
  unfold forkData
  rw [show va + PGSIZE * BitVec.ofNat 64 0 = va by simp, Prog.wp_bind]
  have hal := asInt_aligned hva
  generalize asInt va = va' at hal ⊢
  refine allocPage_space h (fun hnil => ?_) fun p fl₁ g hfl h₁ hfresh _ => ?_
  · rw [Prog.wp_bind, Prog.wp_of_ret (lookupPa_space h hp _), Prog.wp_bind,
      Prog.wp_of_halt (physMemcpy_null (Or.inl rfl) _ _)]
    rintro ⟨-, -, -, hlen⟩
    simp [hnil] at hlen
  · rw [Prog.wp_bind, Prog.wp_of_ret (lookupPa_space h₁ hp _), Prog.wp_bind]
    rcases lookupAnswer_cases ph.mem (V.procs parent).root va' with h0 | ⟨w, hw, hsrc⟩
    · rw [Prog.wp_of_halt (physMemcpy_null (Or.inr h0) _ _)]
      exact fun hok => hok.2.2.1 h0
    rw [hsrc]
    by_cases hq : ptePpn w = 0
    · rw [Prog.wp_of_halt (physMemcpy_null (Or.inr (addr_eq_zero.mpr hq)) _ _)]
      exact fun hok => hok.2.2.1 (addr_eq_zero.mpr hq)
    rw [Prog.wp_of_ret (physMemcpy_eq (h₁.managed_ne_zero hfresh.managed) hq _ _)]
    have hcopy : memcpy ph.mem (addr p) (addr (ptePpn w)) 4096 p = ph.mem (ptePpn w) := by
      rw [memcpy_page, Function.update_self]
    have hmem : ∀ q', q' ≠ p → memcpy ph.mem (addr p) (addr (ptePpn w)) 4096 q' = ph.mem q' :=
      fun q' hq' => memcpy_of_ne _ le_rfl hq'
    generalize memcpy ph.mem (addr p) (addr (ptePpn w)) 4096 = m at hmem hcopy ⊢
    obtain ⟨h₂, hkeep⟩ := h₁.writeFresh hfresh hmem
    have hfresh₂ := hkeep p hfresh
    have hold : ∀ j ∈ V.all, ∀ v, V.leaf { ph with mem := m, gFreeMemList := g } j v =
        V.leaf ph j v := fun j hj v => leaf_write hmem hfresh.spare.table hj v
    refine Prog.wp_bind.mpr (Prog.wp_mono (userVmMap_space h₂ hc (Or.inr ⟨rfl, hal⟩)) ?_
      (fun _ h => h) ?_)
    · rintro _ ph' ⟨fl', -, hmap, hlen, -⟩
      have h₃ := h₂.mapOne hc hmap (hfresh₂.newLeaf child _
        (by rw [ptePpn_mkPte _ (by decide), ppn_addr]) (userData_leaf_user _)
        (userData_leaf_readable _))
      have htab : tablePages m V.roots = tablePages ph.mem V.roots :=
        nodes_congr fun q hq => hmem q (by rintro rfl; exact hfresh.spare.table hq)
      refine ⟨fl', h₃, (hold child hc _).symm.trans hmap.unmapped, ⟨p, w, ?_, hw, ?_,
        fun j hj v => ?_⟩, fun q hqfl hqtab => ?_, fun q hq => ?_, ?_⟩
      · rw [hfl]
        exact List.mem_cons_self
      · rw [hmap.grow.frame_old hfresh₂.spare.free hfresh₂.spare.table]
        exact hcopy
      · rw [h₂.leaf_mapOne hc hmap hj, hold j hj]
      · have hqp : q ≠ p := by
          rintro rfl
          exact hqfl (hfl ▸ List.mem_cons_self)
        rw [hmap.grow.frame_old (fun hm => hqfl (hfl ▸ List.mem_cons_of_mem _ hm))
          (fun hm => hqtab (htab ▸ hm))]
        exact hmem q hqp
      · rcases (h₂.evolves_grow hmap.grow).sub q hq with hq | hq
        · exact Or.inl (hfl ▸ List.mem_cons_of_mem _ hq)
        · exact Or.inr (htab ▸ hq)
      · rw [hfl, List.length_cons]
        omega
    · rintro _ hn ⟨hlow, hnone, -, hlen⟩
      refine hn.1 ⟨hlow, (hold child hc _).trans hnone, Or.inl ?_⟩
      rw [hfl, List.length_cons] at hlen
      omega

section Cases

variable (h : Space iso L (s.view P P) s.phys fl) (hp : parent ∈ P) (hc : child ∈ P)

include h hp hc

theorem forkRegion_context (htotal : (s.procs child).totalMappedRegion ≤ 3)
    (hseg : regionSeg s.phys.mem (s.procs parent).space 1 = some .CONTEXT) :
    Prog.wp (forkRegion parent child 1)
      (fun _ s' => ForkedRegion iso L P parent child 1 s fl s' fl) (fun _ => False)
      (fun _ => False) s := by
  refine wp_forkRegion hseg ?_
  have hdest : addr ((s.procs child).space.own .trapframe) = (s.procs child).trapframe :=
    (h.aligned child hc).trapframe
  have hsrc : addr ((s.procs parent).space.own .trapframe) = (s.procs parent).trapframe :=
    (h.aligned parent hp).trapframe
  obtain ⟨hfl, htab, hman⟩ := h.own_apart child hc .trapframe
  have hmem : ∀ q, q ≠ (s.procs child).space.own .trapframe →
      memcpy s.phys.mem (s.procs child).trapframe (s.procs parent).trapframe sizeofTrapframe q =
        s.phys.mem q := by
    rw [← hdest, ← hsrc]
    exact fun q hq => memcpy_of_ne _ (by decide) hq
  have hcopy : ∀ o : Idx, o.toNat < sizeofTrapframe / 8 →
      memcpy s.phys.mem (s.procs child).trapframe (s.procs parent).trapframe sizeofTrapframe
        ((s.procs child).space.own .trapframe) o =
      s.phys.mem ((s.procs parent).space.own .trapframe) o := by
    intro o ho
    rw [← hdest, ← hsrc, memcpy, memcpy_words _ _ _ _ (by decide), if_pos ⟨rfl, ho⟩]
  have hinfo : ∀ i ∈ P, (s.procs child).space.own .trapframe ≠ (s.procs i).space.own .info :=
    fun i hi => h.own_ne hc hi (by decide)
  have hrun : physMemcpy (s.procs child).trapframe (s.procs parent).trapframe sizeofTrapframe
      s.phys = .ret () { s.phys with
        mem := memcpy s.phys.mem (s.procs child).trapframe (s.procs parent).trapframe
          sizeofTrapframe } := by
    rw [← hdest, ← hsrc]
    exact physMemcpy_eq (h.managed_ne_zero hman)
      (h.managed_ne_zero (h.own_apart parent hp .trapframe).2.2) _ _
  dsimp only
  rw [wp_onPhys, Prog.wp_of_ret hrun]
  generalize memcpy s.phys.mem _ _ _ = m at hmem hcopy ⊢
  refine ForkedRegion.of_write h hp hc hmem hfl htab hinfo (Or.inr ⟨rfl, rfl⟩) htotal
    (fun va hva => ?_) fun _ => hcopy
  rw [regionTarget, hseg] at hva
  cases hva

theorem forkRegion_stack (htotal : (s.procs child).totalMappedRegion ≤ 3)
    (hseg : regionSeg s.phys.mem (s.procs parent).space 0 = some .STACK) :
    Prog.wp (forkRegion parent child 0)
      (fun _ s' => ForkedRegion iso L P parent child 0 s fl s' fl) (fun _ => False)
      (fun _ => lookupAnswer s.phys.mem (s.procs child).space.root (USER_STACK_TOP - PGSIZE) = 0 ∨
        lookupAnswer s.phys.mem (s.procs parent).space.root (USER_STACK_TOP - PGSIZE) = 0) s := by
  refine wp_forkRegion hseg ?_
  dsimp only
  have hva := (h.ready parent hp).regions.stack.1
  have hva' := (h.ready child hc).regions.stack.1
  change regionVa s.phys.mem (s.procs parent).space 0 = _ at hva
  change regionVa s.phys.mem (s.procs child).space 0 = _ at hva'
  rw [Prog.wp_bind, wp_onPhys, load, Prog.wp_gets]
  change Prog.wp (onPhys (lookupPa _ (regionVa s.phys.mem (s.procs child).space 0)) >>= _) _ _ _ _
  rw [hva, hva']
  refine wp_lookupPa h hc (wp_lookupPa h hp ?_)
  rw [wp_onPhys]
  rcases lookupAnswer_cases s.phys.mem (s.procs child).space.root (USER_STACK_TOP - PGSIZE) with
    h0 | ⟨w, hw, hdest⟩
  · rw [Prog.wp_of_halt (physMemcpy_null (Or.inl h0) _ _)]
    exact Or.inl h0
  rcases lookupAnswer_cases s.phys.mem (s.procs parent).space.root (USER_STACK_TOP - PGSIZE) with
    h0 | ⟨w', hw', hsrc⟩
  · rw [Prog.wp_of_halt (physMemcpy_null (Or.inr h0) _ _)]
    exact Or.inr h0
  obtain ⟨hspare, hU⟩ := h.user_of_ne hc hw (h.trapframe_ne_stack hc).symm
    (h.trapSec_ne_stack hc).symm
  have hmem : ∀ q, q ≠ ptePpn w →
      memcpy s.phys.mem (addr (ptePpn w)) (addr (ptePpn w')) 4096 q = s.phys.mem q :=
    fun q hq => memcpy_of_ne _ le_rfl hq
  have hcopy : memcpy s.phys.mem (addr (ptePpn w)) (addr (ptePpn w')) 4096 (ptePpn w) =
      s.phys.mem (ptePpn w') := by
    rw [memcpy_page, Function.update_self]
  by_cases hzero : addr (ptePpn w) = 0 ∨ addr (ptePpn w') = 0
  · rw [Prog.wp_of_halt (physMemcpy_null (by rwa [hdest, hsrc]) _ _)]
    rcases hzero with h0 | h0
    · exact Or.inl (hdest.trans h0)
    · exact Or.inr (hsrc.trans h0)
  · rw [addr_eq_zero, addr_eq_zero, not_or] at hzero
    rw [hdest, hsrc, Prog.wp_of_ret (physMemcpy_eq hzero.1 hzero.2 _ _)]
    generalize memcpy s.phys.mem _ _ _ = m at hmem hcopy ⊢
    refine ForkedRegion.of_write h hp hc hmem hspare.free hspare.table
      (fun i hi => hspare.own i hi .info) (Or.inl ⟨rfl, w, hw, rfl⟩) htotal
      (fun va htarget => ?_) fun h01 => absurd h01 (by decide)
    rw [regionTarget, hseg] at htarget
    obtain rfl : regionVa s.phys.mem (s.procs parent).space 0 = va := Option.some.inj htarget
    rw [hva]
    refine ⟨w, (leaf_write (V := s.view P P) hmem hspare.table hc _).trans hw, hU, ?_⟩
    intro w₂ hw₂ _
    obtain rfl : w' = w₂ := Option.some.inj (hw'.symm.trans hw₂)
    exact ⟨hcopy, fun hcode => absurd (hseg.symm.trans hcode) (by decide)⟩

omit h hp hc in
/-- Region `k` of code is not at a page of a kernel mapping. -/
theorem RegionOk.code {k : ℕ} (hok : RegionOk L s.phys.mem (s.procs parent).space k)
    (hseg : regionSeg s.phys.mem (s.procs parent).space k = some .CODE) :
    vpn (regionVa s.phys.mem (s.procs parent).space k) ≠ vpn (s.procs parent).trapframe ∧
      vpn (regionVa s.phys.mem (s.procs parent).space k) ≠ vpn L.trapSecStart := by
  rcases hok with ⟨-, h1⟩ | ⟨h1, -⟩
  · exact h1
  · rw [hseg] at h1
    cases h1

omit h hp hc in
/-- Region `k` is one page of data at an address of a page. -/
theorem RegionOk.data {k : ℕ} (hok : RegionOk L s.phys.mem (s.procs parent).space k)
    (hseg : regionSeg s.phys.mem (s.procs parent).space k = some .DATA) :
    regionPages s.phys.mem (s.procs parent).space k = 1 ∧
      regionVa s.phys.mem (s.procs parent).space k % PGSIZE = 0 := by
  rcases hok with ⟨h1, -⟩ | ⟨-, h1⟩
  · rw [hseg] at h1
    cases h1
  · exact h1

/-- The permissions of a page of user code. -/
abbrev userCodePerm : Word := protToType (PROT_EXEC ||| PROT_READ) 1

omit h hp hc in
theorem userCode_leaf_user (a : Word) : mkPte a userCodePerm &&& PTE_U ≠ 0 := by
  rw [mkPte_and_flag _ _ (by decide)]
  decide

omit h hp hc in
theorem userCode_leaf_readable (a : Word) : mkPte a userCodePerm &&& PTE_R ≠ 0 := by
  rw [mkPte_and_flag _ _ (by decide)]
  decide

omit h hp hc in
theorem lt_MAXVA_of_page {va : Word} (h : addr (ppn va) < MAXVA) : va < MAXVA := by
  rw [BitVec.lt_def, addr_toNat, ppn_toNat] at h
  rw [BitVec.lt_def]
  rw [show MAXVA.toNat = 2 ^ 38 from rfl] at *
  omega

omit hp hc in
/-- `lookup_pa` on a page of user mode. -/
theorem lookupAnswer_user {i : Pid} (hi : i ∈ P) {va w : Word} (hva : va < MAXVA)
    (hw : translate s.phys.mem (s.procs i).space.root (vpn va) = some w) (hU : w &&& PTE_U ≠ 0) :
    lookupAnswer s.phys.mem (s.procs i).space.root va = addr (ptePpn w) := by
  have hR : w &&& PTE_R ≠ 0 := h.readable i hi (vpn va) w hw hU
  exact lookupAnswer_readable hva hw (Or.inl hR)

omit hc in
/-- The child has the page of the parent as a page of code. -/
theorem copied_code {shared : Prop} {va : Word} {m : Mem} {s' : Kernel} (hva : va < MAXVA)
    (hs' : s'.phys.mem = m)
    (hleaf : translate m (s.procs child).space.root (vpn va) =
      some (mkPte (lookupAnswer s.phys.mem (s.procs parent).space.root va) userCodePerm))
    (hframe : ∀ q, (s.view P P).Spare s.phys fl q → m q = s.phys.mem q) :
    Copied parent child shared (vpn va) s s' := by
  refine ⟨_, by rw [hs']; exact hleaf, userCode_leaf_user _, fun w hw hU => ?_⟩
  rw [ptePpn_mkPte _ (by decide), lookupAnswer_user h hp hva hw hU, ppn_addr, hs']
  exact ⟨hframe _ (h.user parent hp _ w hw hU), fun _ => rfl⟩

omit hc in
/-- The child may get the page that the parent has at `va`. -/
theorem newLeaf_code (hiso : ¬ iso) {va : Word} (htf : vpn va ≠ vpn (s.procs parent).trapframe)
    (hts : vpn va ≠ vpn L.trapSecStart) :
    NewLeaf iso L (s.view P P) s.phys fl child (vpn va)
      (mkPte (lookupAnswer s.phys.mem (s.procs parent).space.root va) userCodePerm) := by
  refine ⟨fun _ => ?_, fun _ => userCode_leaf_readable _, fun hi => absurd hi hiso,
    fun hU => absurd hU (userCode_leaf_user _)⟩
  rw [ptePpn_mkPte _ (by decide)]
  rcases lookupAnswer_cases s.phys.mem (s.procs parent).space.root va with h0 | ⟨w, hw, h0⟩
  · rw [h0]
    exact h.ppn_zero_spare
  · rw [h0, ppn_addr]
    exact (h.user_of_ne hp hw htf hts).1

/-- A region of code at `va` is recorded for the child, behind its other regions. -/
def Kernel.recordCode (s : Kernel) (child : Pid) (ph : Phys) (va : Word) (npages : BitVec 32)
    (console : List Msg) : Kernel :=
  { s with
    phys := { ph with
      mem := recordRegion ph.mem (s.procs child).space (s.procs child).totalMappedRegion va
        npages .CODE }
    procs := Function.update s.procs child { s.procs child with
      totalMappedRegion := (s.procs child).totalMappedRegion + 1 }
    console := console }

section Code

variable (hne : parent ≠ child) {k : ℕ} (htotal : (s.procs child).totalMappedRegion ≤ max 3 k)
  {va : Word} {ph' : Phys}
  (hmap : MapOne (s.view P P).roots (s.procs child).space.root (vpn va)
    (mkPte (lookupAnswer s.phys.mem (s.procs parent).space.root va) userCodePerm)
    s.phys fl ph' fl')
  (h' : Space iso L (s.view P P) ph' fl')

include hmap h'

omit hp in
/-- The list of regions of the child with the one of code. -/
theorem Regions.recordCode (hlt : (s.procs child).totalMappedRegion < 256)
    (hts : vpn va ≠ vpn L.trapSecStart) (npages : BitVec 32) :
    Regions L (recordRegion ph'.mem (s.procs child).space (s.procs child).totalMappedRegion va
      npages .CODE) (s.procs child).space ((s.procs child).totalMappedRegion + 1) := by
  have hregs : Regions L ph'.mem (s.procs child).space (s.procs child).totalMappedRegion :=
    (h'.ready child hc).regions
  -- where the page could be mapped, the child has no kernel mapping
  have htf : vpn va ≠ vpn (s.procs child).space.trapframe := by
    intro heq
    have hnone := hmap.unmapped
    rw [heq] at hnone
    exact Option.some_ne_none _ ((h.ready child hc).trapframe.symm.trans hnone)
  refine hregs.record hregs.lo le_rfl hlt (Or.inl ⟨?_, ?_, ?_⟩) fun hn => absurd rfl hn
  · rw [regionSeg_recordRegion hlt hlt, if_pos rfl]
  · rw [regionVa_recordRegion hlt hlt, if_pos rfl]
    exact htf
  · rw [regionVa_recordRegion hlt hlt, if_pos rfl]
    exact hts

omit hp in
/-- The table of the child with the page of code. -/
theorem translate_recordCode (hlt : (s.procs child).totalMappedRegion < 256)
    (npages : BitVec 32) (c : List Msg) (v : Vpn) :
    translate (s.recordCode child ph' va npages c).phys.mem (s.procs child).space.root v =
      if v = vpn va then
        some (mkPte (lookupAnswer s.phys.mem (s.procs parent).space.root va) userCodePerm)
      else translate s.phys.mem (s.procs child).space.root v := by
  refine (leaf_write (V := s.view P P)
    (fun q hq => recordRegion_of_ne (h.aligned child hc) hlt hq)
    (h'.own_apart child hc .info).2.1 hc v).trans ?_
  refine (h.leaf_mapOne hc hmap hc v).trans ?_
  simp only [true_and]
  rfl

include hne htotal

/-- The page at `va` of the parent was mapped in the child, and recorded as code. -/
theorem CodeRegion.forked (h3 : 3 ≤ k) (hk : k < 256) (hseg : CodeRegion s parent k)
    (htarget : regionTarget s.phys.mem (s.procs parent).space k = some va) (hlow : va < MAXVA)
    (hts : vpn va ≠ vpn L.trapSecStart) (hlen : fl.length ≤ fl'.length + 2)
    (npages : BitVec 32) (c : List Msg) :
    ForkedRegion iso L P parent child k s fl (s.recordCode child ph' va npages c) fl' := by
  have hal : (s.procs child).space.Aligned := h.aligned child hc
  have hlt : (s.procs child).totalMappedRegion < 256 := by omega
  have hregs := Regions.recordCode h hc hmap h' hlt hts npages
  have hleaf := translate_recordCode h hc hmap h' hlt npages c
  have hview : (s.recordCode child ph' va npages c).view P P =
      (s.view P P).setTotal child ((s.procs child).totalMappedRegion + 1) :=
    view_setTotal s P _ _ _ _
  have htargets : ∀ j < 256, regionTarget (recordRegion ph'.mem (s.procs child).space
      (s.procs child).totalMappedRegion va npages .CODE) (s.procs child).space j =
      if j = (s.procs child).totalMappedRegion then some va
      else regionTarget ph'.mem (s.procs child).space j := fun j hj =>
    regionTarget_recordRegion hlt hj
  have hm : ∀ q, q ≠ (s.procs child).space.own .info →
      recordRegion ph'.mem (s.procs child).space (s.procs child).totalMappedRegion va npages
        .CODE q = ph'.mem q := fun q hq => recordRegion_of_ne hal hlt hq
  unfold Kernel.recordCode at hleaf hview ⊢
  generalize recordRegion ph'.mem (s.procs child).space (s.procs child).totalMappedRegion va
    npages .CODE = m at *
  have hframe : ∀ q, q ∉ fl → q ∉ tablePages s.phys.mem (s.view P P).roots →
      q ≠ (s.procs child).space.own .info → m q = s.phys.mem q := fun q hfl htab hq =>
    (hm q hq).trans (hmap.grow.frame_old hfl htab)
  have hforking : Forking P parent child s { s with phys := ph' } :=
    Forking.of_map h hp hc rfl hmap h'
  refine ⟨?_, hforking.trans (Forking.of_info h' hp hc hne _ c hm), ?_, by omega,
    fun va' hva' => ?_, fun v w hw => ?_, fun q hfl htab hq _ => hframe q hfl htab hq,
    fun q hq => ?_, fun h1 => by omega, fun j va' hj hva' => ?_⟩
  · rw [hview]
    exact h'.setInfo hc hm fun _ => hregs
  · have hmax : (s.procs child).totalMappedRegion + 1 ≤ max 3 (k + 1) := by omega
    simpa using hmax
  · obtain rfl : va = va' := Option.some.inj (htarget.symm.trans hva')
    exact copied_code h hp hlow rfl ((hleaf _).trans (if_pos rfl)) fun q hq =>
      hframe q hq.free hq.table (hq.own child hc .info)
  · rw [hleaf] at hw
    split_ifs at hw with hv
    · exact Or.inr ⟨va, htarget, hv, Or.inl hseg⟩
    · exact Or.inl hw
  · have htab : tablePages m (s.view P P).roots = tablePages ph'.mem (s.view P P).roots :=
      nodes_congr fun q hq => hm q (by rintro rfl; exact (h'.own_apart child hc .info).2.1 hq)
    exact (h.evolves_grow hmap.grow).sub q (htab ▸ hq)
  · have hj' : j < (s.procs child).totalMappedRegion + 1 := by simpa using hj
    have hva'' : regionTarget m (s.procs child).space j = some va' := hva'
    have hinfo : ph'.mem ((s.procs child).space.own .info) =
        s.phys.mem ((s.procs child).space.own .info) :=
      hmap.grow.frame_old (h.own_apart child hc .info).1 (h.own_apart child hc .info).2.1
    rw [htargets j (by omega)] at hva''
    split_ifs at hva'' with hjt
    · rw [← Option.some.inj hva'']
      exact Or.inr htarget
    · rw [regionTarget_congr hal hinfo (by omega)] at hva''
      exact Or.inl ⟨by omega, hva''⟩

end Code

theorem forkRegion_code (hne : parent ≠ child) (hiso : ¬ iso) {k : ℕ} (h3 : 3 ≤ k) (hk : k < 256)
    (htotal : (s.procs child).totalMappedRegion ≤ max 3 k)
    (hseg : regionSeg s.phys.mem (s.procs parent).space k = some .CODE)
    (hok : RegionOk L s.phys.mem (s.procs parent).space k) :
    Prog.wp (forkRegion parent child k)
      (fun _ s' => ∃ fl', ForkedRegion iso L P parent child k s fl s' fl' ∧
        translate s'.phys.mem (s.procs child).space.root
            (vpn (regionVa s.phys.mem (s.procs parent).space k)) =
          some (mkPte (lookupAnswer s.phys.mem (s.procs parent).space.root
            (regionVa s.phys.mem (s.procs parent).space k)) userCodePerm))
      (fun _ => False)
      (fun _ => ¬ (addr (ppn (regionVa s.phys.mem (s.procs parent).space k)) < MAXVA ∧
        translate s.phys.mem (s.procs child).space.root
          (vpn (regionVa s.phys.mem (s.procs parent).space k)) = none ∧ 2 ≤ fl.length)) s := by
  refine wp_forkRegion hseg ?_
  dsimp only
  obtain ⟨htf, hts⟩ := hok.code hseg
  have htarget : regionTarget s.phys.mem (s.procs parent).space k =
      some (regionVa s.phys.mem (s.procs parent).space k) := by
    rw [regionTarget, hseg]
  generalize regionVa s.phys.mem (s.procs parent).space k = va at *
  generalize regionPages s.phys.mem (s.procs parent).space k = npages
  rw [and_not_mask]
  refine wp_lookupPa h hp ?_
  refine wp_userVmMap (V := s.view P P) h hc (Or.inr ⟨rfl, addr_mod _⟩) (fun _ hn _ => ?_)
    fun s₁ fl' hs₁ hlow hmap hlen _ => ?_
  · rw [vpn_addr_ppn] at hn
    exact fun h => hn ⟨h.1, h.2.1, Or.inl h.2.2⟩
  rw [vpn_addr_ppn] at hmap
  obtain ⟨ph', rfl⟩ : ∃ ph', s₁ = { s with phys := ph' } := ⟨_, hs₁⟩
  have h' := h.mapOne hc hmap (newLeaf_code h hp hiso htf hts)
  refine wp_lookupPa (s := { s with phys := ph' }) (P := P) h' hp ?_
  rw [sprint, Prog.wp_bind, Prog.wp_modify]
  refine wp_storeRegion (a := (s.procs child).space) fun s₂ hs₂ hrec => ?_
  rw [setProc, Prog.wp_modify]
  obtain ⟨c, hfinal⟩ : ∃ c, { s₂ with procs := Function.update s₂.procs child { s₂.procs child with
      totalMappedRegion := (s₂.procs child).totalMappedRegion + 1 } } =
      s.recordCode child ph' va npages c := by
    unfold PhysOnly at hs₂
    rw [hrec] at hs₂
    rw [hs₂]
    exact ⟨_, rfl⟩
  have hlt : (s.procs child).totalMappedRegion < 256 := by omega
  rw [show _ = _ from hfinal]
  exact ⟨fl', CodeRegion.forked h hp hc hne htotal hmap h' h3 hk hseg htarget
    (lt_MAXVA_of_page hlow) hts hlen npages c,
    (translate_recordCode h hc hmap h' hlt npages c _).trans (if_pos rfl)⟩

/-- The list of regions of the child was written and a page of data copied. -/
theorem DataCopied.forked (hne : parent ≠ child) {k : ℕ} (h3 : 3 ≤ k)
    (htotal : (s.procs child).totalMappedRegion ≤ max 3 k) {m : Mem} {va : Word} {ph' : Phys}
    (hm : ∀ q, q ≠ (s.procs child).space.own .info → m q = s.phys.mem q)
    (hseg : ¬ CodeRegion s parent k)
    (htarget : regionTarget s.phys.mem (s.procs parent).space k = some va)
    (htargets : ∀ j < (s.procs child).totalMappedRegion,
      regionTarget m (s.procs child).space j = regionTarget s.phys.mem (s.procs child).space j)
    (hd : DataCopied iso L (s.view P P) parent child va { s.phys with mem := m } fl ph' fl') :
    ForkedRegion iso L P parent child k s fl { s with phys := ph' } fl' := by
  obtain ⟨-, hinfotab, -⟩ := h.own_apart child hc .info
  have hold : ∀ j ∈ P, ∀ v, translate m (s.procs j).space.root v =
      translate s.phys.mem (s.procs j).space.root v := fun j hj v =>
    leaf_write (V := s.view P P) hm hinfotab hj v
  have htab : tablePages m (s.view P P).roots = tablePages s.phys.mem (s.view P P).roots :=
    nodes_congr fun q hq => hm q (by rintro rfl; exact hinfotab hq)
  have hframe : ∀ q, q ∉ fl → q ∉ tablePages s.phys.mem (s.view P P).roots →
      q ≠ (s.procs child).space.own .info → ph'.mem q = s.phys.mem q := fun q hfl hq hinfo =>
    (hd.frame q hfl (by rw [htab]; exact hq)).trans (hm q hinfo)
  have hnone : translate s.phys.mem (s.procs child).space.root (vpn va) = none :=
    (hold child hc _).symm.trans hd.unmapped
  obtain ⟨p, w, hpfree, hw, hcopy, hleaf⟩ := hd.leaf
  have hleaf' : ∀ j ∈ P, ∀ v, translate ph'.mem (s.procs j).space.root v =
      if j = child ∧ v = vpn va then some (mkPte (addr p) userDataPerm)
      else translate s.phys.mem (s.procs j).space.root v := by
    intro j hj v
    rw [← hold j hj v]
    exact hleaf j hj v
  obtain ⟨hpfl, hptab, -⟩ := h.own_apart parent hp .info
  refine ⟨hd.space, ⟨rfl, fun _ _ => rfl, rfl, hframe _ hpfl hptab fun heq => hne ?_,
    fun j hj v w' hw' => ?_, fun j hj hjc v => (hleaf' j hj v).trans (if_neg fun h => hjc h.1)⟩,
    htotal.trans (by omega), hd.length, fun va' hva' => ?_,
    fun v w' hw' => ?_, fun q hfl hq hinfo _ => hframe q hfl hq hinfo,
    fun q hq => by rw [← htab]; exact hd.sub q hq, fun h1 => by omega, ?_⟩
  · exact (h.own_inj parent hp child hc .info .info heq).1
  · refine (hleaf' j hj v).trans ?_
    rw [if_neg]
    · exact hw'
    · rintro ⟨rfl, rfl⟩
      exact Option.some_ne_none _ (hw'.symm.trans hnone)
  · obtain rfl : va = va' := Option.some.inj (htarget.symm.trans hva')
    refine ⟨_, (hleaf' child hc _).trans (if_pos ⟨rfl, rfl⟩), userData_leaf_user _, ?_⟩
    intro w₂ hw₂ hU
    obtain rfl : w = w₂ := Option.some.inj (hw.symm.trans ((hold parent hp _).trans hw₂))
    have hspare := h.user parent hp _ w hw₂ hU
    rw [ptePpn_mkPte _ (by decide), ppn_addr]
    exact ⟨hcopy.trans (hm _ (hspare.own child hc .info)), fun hcode => absurd hcode hseg⟩
  · rw [show _ = _ from hleaf' child hc v] at hw'
    split_ifs at hw' with hv
    · obtain rfl := Option.some.inj hw'
      rw [ptePpn_mkPte _ (by decide), ppn_addr]
      exact Or.inr ⟨va, htarget, hv.2, Or.inr (Or.inl hpfree)⟩
    · exact Or.inl hw'
  · intro j va' hj hva'
    have hhi : (s.procs child).totalMappedRegion ≤ 256 := (h.ready child hc).regions.hi
    have hj' : j < (s.procs child).totalMappedRegion := hj
    have hinfo : ph'.mem ((s.procs child).space.own .info) = m ((s.procs child).space.own .info) :=
      hd.frame _ (h.own_apart child hc .info).1 (by rw [htab]; exact hinfotab)
    rw [show regionTarget _ (s.procs child).space j = regionTarget m (s.procs child).space j from
      regionTarget_congr (h.aligned child hc) hinfo (by omega), htargets j hj'] at hva'
    exact Or.inl ⟨hj', hva'⟩

theorem forkRegion_data (hne : parent ≠ child) {k : ℕ} (h3 : 3 ≤ k) (hk : k < 256)
    (htotal : (s.procs child).totalMappedRegion ≤ max 3 k)
    (hseg : regionSeg s.phys.mem (s.procs parent).space k = some .DATA)
    (hok : RegionOk L s.phys.mem (s.procs parent).space k) :
    Prog.wp (forkRegion parent child k)
      (fun _ s' => ∃ fl', ForkedRegion iso L P parent child k s fl s' fl') (fun _ => False)
      (fun _ => ¬ (asInt (regionVa s.phys.mem (s.procs parent).space k) < MAXVA ∧
        translate s.phys.mem (s.procs child).space.root
          (vpn (asInt (regionVa s.phys.mem (s.procs parent).space k))) = none ∧
        lookupAnswer s.phys.mem (s.procs parent).space.root
          (asInt (regionVa s.phys.mem (s.procs parent).space k)) ≠ 0 ∧ 3 ≤ fl.length)) s := by
  refine wp_forkRegion hseg ?_
  dsimp only
  obtain ⟨hpages, hva⟩ := hok.data hseg
  have htarget : regionTarget s.phys.mem (s.procs parent).space k =
      some (asInt (regionVa s.phys.mem (s.procs parent).space k)) := by
    rw [regionTarget, hseg]
  rw [hpages]
  generalize regionVa s.phys.mem (s.procs parent).space k = va at hva htarget ⊢
  have hal : (s.procs child).space.Aligned := h.aligned child hc
  have hregs : Regions L s.phys.mem (s.procs child).space (s.procs child).totalMappedRegion :=
    (h.ready child hc).regions
  have hppn := regionAddr_ppn hal (o := 0) hk (by omega)
  rw [BitVec.add_zero] at hppn
  have hm : ∀ q, q ≠ (s.procs child).space.own .info →
      store64 s.phys.mem (regionAddr (s.procs child).space.mappedInfo k) va q = s.phys.mem q :=
    fun q hq => store64_of_ne (by rwa [hppn])
  have hregs' := hregs.store_va (k := k) (by omega) hk va
  have htargets : ∀ j < (s.procs child).totalMappedRegion,
      regionTarget (store64 s.phys.mem (regionAddr (s.procs child).space.mappedInfo k) va)
        (s.procs child).space j = regionTarget s.phys.mem (s.procs child).space j := fun j hj =>
    regionTarget_store_va (by omega) (by omega) hk va
  rw [Prog.wp_bind, wp_onPhys, store, Prog.wp_modify, wp_onPhys]
  change Prog.wp _ _ _ _ { s.phys with
    mem := store64 s.phys.mem (regionAddr (s.procs child).space.mappedInfo k) va }
  generalize store64 s.phys.mem (regionAddr (s.procs child).space.mappedInfo k) va = m
    at hm hregs' htargets ⊢
  have h₁ : Space iso L (s.view P P) { s.phys with mem := m } fl := by
    have := h.setInfo hc hm fun _ => hregs'
    rwa [View.setTotal, show Function.update (s.view P P).total child
      (s.procs child).totalMappedRegion = (s.view P P).total from
        Function.update_eq_self child _] at this
  obtain ⟨-, hinfotab, -⟩ := h.own_apart child hc .info
  have hleaf : ∀ j ∈ P, ∀ v, translate m (s.procs j).space.root v =
      translate s.phys.mem (s.procs j).space.root v := fun j hj v =>
    leaf_write (V := s.view P P) hm hinfotab hj v
  have hlookup : lookupAnswer m (s.procs parent).space.root (asInt va) =
      lookupAnswer s.phys.mem (s.procs parent).space.root (asInt va) := by
    unfold lookupAnswer absTable
    rw [hleaf parent hp]
  refine Prog.wp_mono (forkData_space (V := s.view P P) h₁ hp hc hva) ?_ (fun _ h => h) ?_
  · rintro _ ph' ⟨fl', hdata⟩
    exact ⟨fl', hdata.forked h hp hc hne h3 htotal hm
      (fun hcode => absurd (hseg.symm.trans hcode) (by decide)) htarget htargets⟩
  · rintro _ hn ⟨hlow, hnone, hsrc, hlen⟩
    exact hn ⟨hlow, (hleaf child hc _).trans hnone, by rw [← hlookup] at hsrc; exact hsrc, hlen⟩

/-- Region `k` of the parent can be given to the child. -/
def RegionForkable (s : Kernel) (parent child : Pid) (k : ℕ) : Prop :=
  ∀ va, regionTarget s.phys.mem (s.procs parent).space k = some va →
    va < MAXVA ∧ lookupAnswer s.phys.mem (s.procs parent).space.root va ≠ 0 ∧
    if k = 0 then lookupAnswer s.phys.mem (s.procs child).space.root va ≠ 0
    else translate s.phys.mem (s.procs child).space.root (vpn va) = none

omit h hp hc in
theorem page_lt_MAXVA {va : Word} (h : va < MAXVA) : addr (ppn va) < MAXVA := by
  rw [BitVec.lt_def] at *
  rw [addr_toNat, ppn_toNat]
  omega

/-- Every region the parent can have. -/
theorem forkRegion_space (hne : parent ≠ child) (hiso : iso → ¬ s.HasCode parent) {k : ℕ}
    (hk : k < (s.procs parent).totalMappedRegion)
    (htotal : (s.procs child).totalMappedRegion ≤ max 3 k) :
    Prog.wp (forkRegion parent child k)
      (fun _ s' => ∃ fl', ForkedRegion iso L P parent child k s fl s' fl') (fun _ => False)
      (fun _ => ¬ (RegionForkable s parent child k ∧ 3 ≤ fl.length)) s := by
  have hregs : Regions L s.phys.mem (s.procs parent).space (s.procs parent).totalMappedRegion :=
    (h.ready parent hp).regions
  have hhi := hregs.hi
  by_cases h3 : 3 ≤ k
  · have hok := hregs.rest k h3 hk
    rcases id hok with ⟨hseg, -⟩ | ⟨hseg, -⟩
    · refine Prog.wp_mono (forkRegion_code h hp hc hne (fun hi => hiso hi ⟨k, hk, hseg⟩) h3
        (by omega) htotal hseg hok) (fun _ s' ⟨fl', hf, _⟩ => ⟨fl', hf⟩) (fun _ h => h) ?_
      rintro _ hn ⟨hfork, hlen⟩
      obtain ⟨hlow, -, hnone⟩ := hfork _ (by rw [regionTarget, hseg])
      rw [if_neg (by omega)] at hnone
      exact hn ⟨page_lt_MAXVA hlow, hnone, by omega⟩
    · refine Prog.wp_mono (forkRegion_data h hp hc hne h3 (by omega) htotal hseg hok)
        (fun _ _ h => h) (fun _ h => h) ?_
      rintro _ hn ⟨hfork, hlen⟩
      obtain ⟨hlow, hsrc, hnone⟩ := hfork _ (by rw [regionTarget, hseg])
      rw [if_neg (by omega)] at hnone
      exact hn ⟨hlow, hnone, hsrc, hlen⟩
  · have htotal' : (s.procs child).totalMappedRegion ≤ 3 := by omega
    obtain rfl | rfl | rfl : k = 0 ∨ k = 1 ∨ k = 2 := by omega
    · refine Prog.wp_mono (forkRegion_stack h hp hc htotal' hregs.stack.2)
        (fun _ s' hf => ⟨fl, hf⟩) (fun _ h => h) ?_
      rintro _ hn ⟨hfork, -⟩
      have htarget : regionTarget s.phys.mem (s.procs parent).space 0 =
          some (USER_STACK_TOP - PGSIZE) := by
        rw [regionTarget, hregs.stack.2, hregs.stack.1]
      obtain ⟨-, hsrc, hdest⟩ := hfork _ htarget
      rw [if_pos rfl] at hdest
      exact hn.elim hdest hsrc
    · exact Prog.wp_mono (forkRegion_context h hp hc htotal' hregs.context.2)
        (fun _ s' hf => ⟨fl, hf⟩) (fun _ h => h) fun _ h => h.elim
    · refine wp_forkRegion hregs.system.2 ?_
      have hnone : regionTarget s.phys.mem (s.procs parent).space 2 = none := by
        rw [regionTarget, hregs.system.2]
      exact ⟨fl, h, Forking.refl P parent child s, htotal', by omega,
        fun va hva => absurd (hnone.symm.trans hva) (by simp), fun _ _ hw => Or.inl hw,
        fun _ _ _ _ _ => rfl, fun _ hp => hp, fun h1 => by omega,
        fun _ _ hj hva => Or.inl ⟨hj, hva⟩⟩

end Cases

end Pke
