import Pke.Space.Region

/-!
# Setting up a process

`alloc_process` takes five pages for a process, maps its user stack, its
trapframe and the trap section, and records the three regions. It keeps the
memory of the other processes in order (`initVmSpace_space`).
-/

namespace Pke

open Lib Radix

variable {iso : Prop} {L : Layout} {V : View} {ph ph' : Phys} {fl fl' : List Ppn} {i : Pid}
  {p : Ppn} {va size pa perm : Word}

/-! ## Memory functions on the invariant -/

/-- A write to a fresh page keeps everything, and the fresh pages fresh. -/
theorem Space.writeFresh (h : Space iso L V ph fl) (hp : V.Fresh ph fl p) {m : Mem}
    (hm : ∀ q, q ≠ p → m q = ph.mem q) :
    Space iso L V { ph with mem := m } fl ∧
      ∀ q, V.Fresh ph fl q → V.Fresh { ph with mem := m } fl q := by
  have he := h.evolves_write hm hp.spare.free hp.spare.table fun j hj =>
    hp.spare.own j (h.ready_sub hj) .info
  have hleaf : ∀ j ∈ V.all, ∀ v, V.leaf { ph with mem := m } j v = V.leaf ph j v :=
    fun j hj v => leaf_write hm hp.spare.table hj v
  exact ⟨h.evolve_same he hleaf, fun q hq => hq.evolve_same he hleaf⟩

/-- `alloc_page` returns NULL or a fresh page. -/
theorem allocPage_space (h : Space iso L V ph fl) {R : Word → Phys → Prop} {E : Phys → Prop}
    {H : Halt → Prop} (hnil : fl = [] → R 0 ph)
    (hcons : ∀ p fl' g, fl = p :: fl' → Space iso L V { ph with gFreeMemList := g } fl' →
      V.Fresh { ph with gFreeMemList := g } fl' p →
      (∀ q, V.Fresh ph fl q → V.Fresh { ph with gFreeMemList := g } fl' q ∧ q ≠ p) →
      R (addr p) { ph with gFreeMemList := g }) : Prog.wp allocPage R E H ph := by
  cases fl with
  | nil => exact (Prog.wp_of_ret (allocPage_nil h.tables.free)).mpr (hnil rfl)
  | cons p fl' =>
    obtain ⟨g, hrun, hfree⟩ := allocPage_cons h.tables.free
    obtain ⟨hs, hp⟩ := h.pop hfree
    refine (Prog.wp_of_ret hrun).mpr (hcons p fl' g rfl hs hp fun q hq => ⟨?_, ?_⟩)
    · exact hq.evolve_same (h.evolves_pop hfree) fun _ _ _ => rfl
    · rintro rfl
      exact hq.spare.free List.mem_cons_self

theorem physMemset_eq (hp : p ≠ 0) (byte : Word) (len : ℕ) (ph : Phys) :
    physMemset (addr p) byte len ph =
      .ret () { ph with mem := memset ph.mem (addr p) byte len } := by
  rw [physMemset, if_neg (mt addr_eq_zero.mp hp)]
  rfl

theorem physMemset_null (byte : Word) (len : ℕ) (ph : Phys) :
    physMemset 0 byte len ph = .halt .fault := by
  rw [physMemset, if_pos rfl]
  rfl

/-- `user_vm_map` of one page of a process. -/
theorem userVmMap_space (h : Space iso L V ph fl) (hi : i ∈ V.all) (hone : OnePage va size) :
    Prog.wp (userVmMap (V.procs i).pagetable va size pa perm)
      (fun _ ph' => ∃ fl', va < MAXVA ∧
        MapOne V.roots (V.procs i).root (vpn va) (mkPte pa perm) ph fl ph' fl' ∧
        fl.length ≤ fl'.length + 2 ∧ (fl = [] → HasTable ph.mem (V.procs i).root (vpn va)))
      (fun _ => False)
      (fun e => ¬ (va < MAXVA ∧ V.leaf ph i (vpn va) = none ∧
          (2 ≤ fl.length ∨ HasTable ph.mem (V.procs i).root (vpn va))) ∧
        (va < MAXVA → V.leaf ph i (vpn va) = none →
          e = .panic "fail to user_vm_map .\n" [])) ph := by
  rw [← (h.aligned i hi).pagetable]
  exact userVmMap_one h.tables (View.root_mem hi) hone

/-! ## The process table as a view -/

/-- The memory of a process. -/
def Process.space (p : Process) : AddrSpace := ⟨p.kstack, p.pagetable, p.trapframe, p.mappedInfo⟩

/-- The process table, with memory for the processes `all` and `ready` set up. -/
def Kernel.view (s : Kernel) (all ready : Set Pid) : View :=
  ⟨fun i => (s.procs i).space, fun i => (s.procs i).totalMappedRegion, ppn s.gKernelPagetable, all,
    ready⟩

/-! ## Taking the pages -/

/-- Process `i` with its five pages. -/
def withPages (p : Process) (tf pt ks mi : Ppn) : Process :=
  { p with
    trapframe := addr tf
    pagetable := addr pt
    kstack := addr ks + PGSIZE
    mappedInfo := addr mi }

theorem withPages_own (p : Process) (tf pt ks mi : Ppn) (k : Own) :
    (withPages p tf pt ks mi).space.own k =
      match k with
      | .trapframe => tf
      | .kstack => ks
      | .info => mi := by
  cases k with
  | trapframe => exact ppn_addr tf
  | kstack =>
    change ppn (addr ks + PGSIZE - PGSIZE) = ks
    rw [BitVec.add_sub_cancel, ppn_addr]
  | info => exact ppn_addr mi

theorem withPages_root (p : Process) (tf pt ks mi : Ppn) :
    (withPages p tf pt ks mi).space.root = pt := ppn_addr pt

theorem withPages_aligned (p : Process) (tf pt ks mi : Ppn) :
    (withPages p tf pt ks mi).space.Aligned where
  pagetable := congrArg addr (ppn_addr pt)
  trapframe := congrArg addr (ppn_addr tf)
  info := congrArg addr (ppn_addr mi)

/-- What `takePages` leaves behind: five pages are taken, the page table and the
    list of regions are empty. -/
structure Taken (iso : Prop) (L : Layout) (V : View) (s : Kernel) (fl : List Ppn) (i : Pid)
    (s' : Kernel) (us : Ppn) (fl' : List Ppn) : Prop where
  taken : ∃ tf pt ks mi, fl = tf :: pt :: ks :: us :: mi :: fl' ∧
    s' = { s with
      phys := s'.phys
      procs := Function.update s.procs i (withPages (s.procs i) tf pt ks mi) }
  space : Space iso L V s'.phys fl'
  new : NewSpace V s'.phys fl' (s'.procs i).space
  stack : V.Fresh s'.phys fl' us
  stack_root : us ≠ (s'.procs i).space.root
  stack_own : ∀ k, us ≠ (s'.procs i).space.own k
  info : ∀ k, s'.phys.mem ((s'.procs i).space.own .info) k = 0
  frame : ∀ q, q ∉ fl → s'.phys.mem q = s.phys.mem q

theorem frameSlot_ppn (p : Ppn) (r : Reg) : ppn (frameSlot (addr p) r) = p := by
  refine ppn_addr_add p ?_
  have := r.index_lt
  unfold Reg.offset
  rw [BitVec.toNat_ofNat]
  omega

/-- While pages are being taken for process `i`, from the state `s₀` on: `F` has
    been taken so far and only these pages were written. -/
structure Taking (iso : Prop) (L : Layout) (V : View) (s₀ : Kernel) (fl₀ : List Ppn) (i : Pid)
    (F : List Ppn) (s : Kernel) (fl : List Ppn) : Prop where
  list : fl₀ = F ++ fl
  space : Space iso L V s.phys fl
  fresh : ∀ q ∈ F, V.Fresh s.phys fl q
  frame : ∀ q, q ∉ F → s.phys.mem q = s₀.phys.mem q
  rest : s = { s₀ with
    phys := s.phys
    procs := Function.update s₀.procs i (s.procs i) }

namespace Taking

variable {s₀ s : Kernel} {fl₀ : List Ppn} {F : List Ppn}

theorem ne_zero (h : Taking iso L V s₀ fl₀ i F s fl) {q : Ppn} (hq : q ∈ F) : q ≠ 0 :=
  h.space.managed_ne_zero (h.fresh q hq).managed

theorem setProc (h : Taking iso L V s₀ fl₀ i F s fl) (p : Process) :
    Taking iso L V s₀ fl₀ i F { s with procs := Function.update s.procs i p } fl where
  list := h.list
  space := h.space
  fresh := h.fresh
  frame := h.frame
  rest := by
    have := h.rest
    generalize s.phys = ph at *
    generalize s.procs i = p' at *
    subst this
    simp

theorem write (h : Taking iso L V s₀ fl₀ i F s fl) {q : Ppn} (hq : q ∈ F) {m : Mem}
    (hm : ∀ q', q' ≠ q → m q' = s.phys.mem q') :
    Taking iso L V s₀ fl₀ i F { s with phys := { s.phys with mem := m } } fl := by
  obtain ⟨hspace, hfresh⟩ := h.space.writeFresh (h.fresh q hq) hm
  refine ⟨h.list, hspace, fun q' hq' => hfresh q' (h.fresh q' hq'), fun q' hq' => ?_, ?_⟩
  · exact (hm q' (by rintro rfl; exact hq' hq)).trans (h.frame q' hq')
  · have := h.rest
    generalize hph : s.phys = ph at *
    generalize s.procs i = p' at *
    subst this
    rfl

section Steps

variable {α β : Type} {R : β → Kernel → Prop} {E : Kernel → Prop} {H : Halt → Prop}

theorem wp_alloc (h : Taking iso L V s₀ fl₀ i F s fl) {k : Word → KernelM β}
    (hnil : fl = [] → s.phys.gFreeMemList = 0 → Prog.wp (k 0) R E H s)
    (hcons : ∀ p fl' s', fl = p :: fl' → Taking iso L V s₀ fl₀ i (F ++ [p]) s' fl' →
      s'.procs = s.procs → s'.phys.mem = s.phys.mem → Prog.wp (k (addr p)) R E H s') :
    Prog.wp (onPhys allocPage >>= k) R E H s := by
  rw [Prog.wp_bind, wp_onPhys]
  refine allocPage_space h.space (fun hn => hnil hn ?_) fun p fl' g hfl hspace hp hkeep => ?_
  · have := h.space.tables.free
    rwa [hn] at this
  · refine hcons p fl' _ hfl ⟨?_, hspace, fun q hq => ?_, fun q hq => ?_, ?_⟩ rfl rfl
    · rw [h.list, hfl, List.append_assoc, List.singleton_append]
    · rcases List.mem_append.mp hq with hq | hq
      · exact (hkeep q (h.fresh q hq)).1
      · exact List.mem_singleton.mp hq ▸ hp
    · exact h.frame q fun hq' => hq (List.mem_append_left _ hq')
    · have := h.rest
      generalize hph : s.phys = ph at *
      generalize s.procs i = p' at *
      subst this
      rfl

theorem wp_setProc (h : Taking iso L V s₀ fl₀ i F s fl) {f : Process → Process}
    {k : Unit → KernelM β}
    (hk : ∀ s', Taking iso L V s₀ fl₀ i F s' fl → s'.procs i = f (s.procs i) →
      s'.phys = s.phys → Prog.wp (k ()) R E H s') : Prog.wp (Pke.setProc i f >>= k) R E H s := by
  rw [Pke.setProc, Prog.wp_bind, Prog.wp_modify]
  exact hk _ (h.setProc _) (Function.update_self _ _ _) rfl

theorem wp_memset (h : Taking iso L V s₀ fl₀ i F s fl) {q : Ppn} (hq : q ∈ F) {len : ℕ}
    (hlen : len ≤ 4096) {k : Unit → KernelM β}
    (hk : ∀ s', Taking iso L V s₀ fl₀ i F s' fl → s'.procs = s.procs →
      s'.phys.mem = memset s.phys.mem (addr q) 0 len → Prog.wp (k ()) R E H s') :
    Prog.wp (onPhys (physMemset (addr q) 0 len) >>= k) R E H s := by
  rw [Prog.wp_bind, wp_onPhys, Prog.wp_of_ret (physMemset_eq (h.ne_zero hq) _ _ _)]
  exact hk _ (h.write hq fun q' hq' => memset_of_ne _ _ hlen hq') rfl rfl

theorem wp_store (h : Taking iso L V s₀ fl₀ i F s fl) {q : Ppn} (hq : q ∈ F) (r : Reg) (v : Word)
    {k : Unit → KernelM β}
    (hk : ∀ s', Taking iso L V s₀ fl₀ i F s' fl → s'.procs = s.procs →
      (∀ q', q' ≠ q → s'.phys.mem q' = s.phys.mem q') → Prog.wp (k ()) R E H s') :
    Prog.wp (onPhys (store (frameSlot (addr q) r) v) >>= k) R E H s := by
  have hm : ∀ q', q' ≠ q → store64 s.phys.mem (frameSlot (addr q) r) v q' = s.phys.mem q' :=
    fun q' hq' => store64_of_ne (by rwa [frameSlot_ppn])
  rw [store, Prog.wp_bind, wp_onPhys, Prog.wp_modify]
  exact hk _ (h.write hq hm) rfl hm

end Steps

end Taking

/-- Without a page for the list of regions the code stops. -/
theorem wp_noInfo {s : Kernel} {i : Pid} {f : Word → Process → Process} {α : Type}
    {k : Word → KernelM α} {R : α → Kernel → Prop} {E : Kernel → Prop} {H : Halt → Prop}
    (hnil : s.phys.gFreeMemList = 0) (hH : ∀ e, H e) :
    Prog.wp (do
      let mi ← onPhys allocPage
      setProc i (f mi)
      onPhys (physMemset mi 0 4096)
      k mi) R E H s := by
  have halloc : allocPage s.phys = .ret 0 s.phys := allocPage_nil hnil
  rw [Prog.wp_bind, wp_onPhys, Prog.wp_of_ret halloc, setProc, Prog.wp_bind, Prog.wp_modify,
    Prog.wp_bind, wp_onPhys, Prog.wp_of_halt (physMemset_null _ _ _)]
  exact hH _

theorem wp_noPage {s : Kernel} {i : Pid} {f : Process → Process} {len : ℕ} {α : Type}
    {k : Unit → KernelM α} {R : α → Kernel → Prop} {E : Kernel → Prop} {H : Halt → Prop}
    (hH : ∀ e, H e) :
    Prog.wp (setProc i f >>= fun _ => onPhys (physMemset 0 0 len) >>= k) R E H s := by
  rw [setProc, Prog.wp_bind, Prog.wp_modify, Prog.wp_bind, wp_onPhys,
    Prog.wp_of_halt (physMemset_null _ _ _)]
  exact hH _

theorem takePages_space {s : Kernel} (h : Space iso L V s.phys fl) :
    Prog.wp (takePages i)
      (fun us s' => ∃ us' fl', us = addr us' ∧ Taken iso L V s fl i s' us' fl')
      (fun _ => False) (fun _ => fl.length < 5) s := by
  have h₀ : Taking iso L V s fl i [] s fl :=
    ⟨rfl, h, fun _ hq => absurd hq List.not_mem_nil, fun _ _ => rfl, by simp⟩
  refine h₀.wp_alloc (fun hnil _ => wp_noPage fun _ => by simp [hnil])
    fun tf fl₁ s₁ hfl₁ h₁ hprocs₁ _ => ?_
  refine h₁.wp_setProc fun s₂ h₂ hproc₂ _ => ?_
  refine h₂.wp_memset (q := tf) (by simp) (by decide) fun s₃ h₃ hprocs₃ _ => ?_
  refine h₃.wp_alloc (fun hnil _ => wp_noPage fun _ => by simp [hfl₁, hnil])
    fun pt fl₂ s₄ hfl₂ h₄ hprocs₄ _ => ?_
  refine h₄.wp_setProc fun s₅ h₅ hproc₅ _ => ?_
  refine h₅.wp_memset (q := pt) (by simp) le_rfl fun s₆ h₆ hprocs₆ hmem₆ => ?_
  -- without a page for the kernel stack there is none for the regions either
  refine h₆.wp_alloc (fun hnil hempty => ?_) fun ks fl₃ s₇ hfl₃ h₇ hprocs₇ hmem₇ => ?_
  · rw [setProc, Prog.wp_bind, Prog.wp_modify, Prog.wp_bind, wp_onPhys,
      Prog.wp_of_ret (allocPage_nil hempty), store, Prog.wp_bind, wp_onPhys, Prog.wp_modify]
    exact wp_noInfo hempty fun _ => by simp [hfl₁, hfl₂, hnil]
  refine h₇.wp_setProc fun s₈ h₈ hproc₈ hphys₈ => ?_
  refine h₈.wp_alloc (fun hnil hempty => ?_) fun us fl₄ s₉ hfl₄ h₉ hprocs₉ hmem₉ => ?_
  · rw [store, Prog.wp_bind, wp_onPhys, Prog.wp_modify]
    exact wp_noInfo hempty fun _ => by simp [hfl₁, hfl₂, hfl₃, hnil]
  refine h₉.wp_store (q := tf) (by simp) .sp USER_STACK_TOP fun s₁₀ h₁₀ hprocs₁₀ hmem₁₀ => ?_
  refine h₁₀.wp_alloc (fun hnil _ => wp_noPage fun _ => by simp [hfl₁, hfl₂, hfl₃, hfl₄, hnil])
    fun mi fl₅ s₁₁ hfl₅ h₁₁ hprocs₁₁ hmem₁₁ => ?_
  refine h₁₁.wp_setProc fun s₁₂ h₁₂ hproc₁₂ hphys₁₂ => ?_
  refine h₁₂.wp_memset (q := mi) (by simp) le_rfl fun s₁₃ h₁₃ hprocs₁₃ hmem₁₃ => ?_
  have hpages : s₁₃.procs i = withPages (s.procs i) tf pt ks mi := by
    rw [hprocs₁₃, hproc₁₂, hprocs₁₁, hprocs₁₀, hprocs₉, hproc₈, hprocs₇, hprocs₆, hproc₅, hprocs₄,
      hprocs₃, hproc₂, hprocs₁]
    rfl
  have hown := withPages_own (s.procs i) tf pt ks mi
  have hroot := withPages_root (s.procs i) tf pt ks mi
  have hlist : fl = tf :: pt :: ks :: us :: mi :: fl₅ := h₁₃.list
  have hnodup := h.tables.free.nodup
  rw [hlist] at hnodup
  simp only [List.nodup_cons, List.mem_cons, not_or] at hnodup
  obtain ⟨⟨htp, htk, htu, htm, -⟩, ⟨hpk, hpu, hpm, -⟩, ⟨hku, hkm, -⟩, ⟨hum, -⟩, -⟩ := hnodup
  refine ⟨us, fl₅, rfl, ⟨tf, pt, ks, mi, hlist, ?_⟩, h₁₃.space, ?_, h₁₃.fresh us (by simp), ?_, ?_,
    ?_, fun q hq => h₁₃.frame q ?_⟩
  · rw [← hpages]
    exact h₁₃.rest
  · rw [hpages]
    have hfresh : ∀ k, V.Fresh s₁₃.phys fl₅ ((withPages (s.procs i) tf pt ks mi).space.own k) := by
      intro k
      rw [hown]
      cases k <;> exact h₁₃.fresh _ (by simp)
    refine ⟨withPages_aligned _ _ _ _ _, ?_, ?_, hfresh, ?_, ?_⟩
    · rw [hroot, hmem₁₃, memset_of_ne _ _ le_rfl hpm, hphys₁₂, hmem₁₁, hmem₁₀ pt (Ne.symm htp),
        hmem₉,
        hphys₈, hmem₇, hmem₆, memset_page, Function.update_self]
      exact fun _ => rfl
    · rw [hroot]
      exact h₁₃.fresh pt (by simp)
    · intro k
      rw [hown, hroot]
      cases k with
      | trapframe => exact htp
      | kstack => exact Ne.symm hpk
      | info => exact Ne.symm hpm
    · intro k l
      rw [hown, hown]
      cases k <;> cases l <;> simp [htk, htm, hkm, Ne.symm htk, Ne.symm htm, Ne.symm hkm]
  · rw [hpages, hroot]
    exact Ne.symm hpu
  · rw [hpages]
    intro k
    rw [hown]
    cases k with
    | trapframe => exact Ne.symm htu
    | kstack => exact Ne.symm hku
    | info => exact hum
  · rw [hpages, hown, hmem₁₃, memset_page]
    intro k
    simp
  · intro hq'
    exact hq (h₁₃.list ▸ List.mem_append_left _ hq')

/-! ## Mapping the regions -/

/-- Only physical memory differs. -/
def PhysOnly (s s' : Kernel) : Prop := s' = { s with phys := s'.phys }

theorem PhysOnly.trans {s s' s'' : Kernel} (h : PhysOnly s s') (h' : PhysOnly s' s'') :
    PhysOnly s s'' := by
  unfold PhysOnly at *
  rw [h] at h'
  exact h'

theorem PhysOnly.procs {s s' : Kernel} (h : PhysOnly s s') : s'.procs = s.procs := by rw [h]

section MapSteps

variable {β : Type} {R : β → Kernel → Prop} {E : Kernel → Prop} {H : Halt → Prop} {s : Kernel}

theorem wp_userVmMap (h : Space iso L V s.phys fl) (hi : i ∈ V.all) (hone : OnePage va size)
    {k : Unit → KernelM β}
    (hH : ∀ e, ¬ (va < MAXVA ∧ V.leaf s.phys i (vpn va) = none ∧
        (2 ≤ fl.length ∨ HasTable s.phys.mem (V.procs i).root (vpn va))) →
      (va < MAXVA → V.leaf s.phys i (vpn va) = none →
        e = .panic "fail to user_vm_map .\n" []) → H e)
    (hk : ∀ s' fl', PhysOnly s s' → va < MAXVA →
      MapOne V.roots (V.procs i).root (vpn va) (mkPte pa perm) s.phys fl s'.phys fl' →
      fl.length ≤ fl'.length + 2 →
      (fl = [] → HasTable s.phys.mem (V.procs i).root (vpn va)) → Prog.wp (k ()) R E H s') :
    Prog.wp (onPhys (userVmMap (V.procs i).pagetable va size pa perm) >>= k) R E H s := by
  rw [Prog.wp_bind, wp_onPhys]
  refine Prog.wp_mono (userVmMap_space h hi hone) ?_ (fun _ h => h.elim) fun e h => hH e h.1 h.2
  rintro _ ph' ⟨fl', hva, hmap, hlen, htab⟩
  exact hk { s with phys := ph' } fl' rfl hva hmap hlen htab

theorem wp_storeRegion {a : AddrSpace} {n : ℕ} {npages : BitVec 32} {seg : SegType}
    {k : Unit → KernelM β}
    (hk : ∀ s', PhysOnly s s' →
      s'.phys = { s.phys with mem := recordRegion s.phys.mem a n va npages seg } →
      Prog.wp (k ()) R E H s') :
    Prog.wp (onPhys (storeRegion (regionAddr a.mappedInfo n) va npages seg) >>= k) R E H s := by
  rw [Prog.wp_bind, wp_onPhys, Prog.wp_of_ret (storeRegion_eq _ _ _ _ _)]
  exact hk _ rfl rfl

end MapSteps

/-- The permissions of a page of user data. -/
abbrev userDataPerm : Word := protToType (PROT_WRITE ||| PROT_READ) 1

theorem userData_leaf_user (a : Word) : mkPte a userDataPerm &&& PTE_U ≠ 0 := by
  rw [mkPte_and_flag _ _ (by decide)]
  decide

theorem userData_leaf_readable (a : Word) : mkPte a userDataPerm &&& PTE_R ≠ 0 := by
  rw [mkPte_and_flag _ _ (by decide)]
  decide

/-- The page below the top of the user stack. -/
abbrev stackVpn : Vpn := vpn (USER_STACK_TOP - PGSIZE)

/-- The entries of a process that has just been set up. -/
def initialLeaf (L : Layout) (a : AddrSpace) (us : Ppn) (v : Vpn) : Option Word :=
  if v = vpn L.trapSecStart then some (mkPte L.trapSecStart trapSecPerm)
  else if v = vpn a.trapframe then some (mkPte a.trapframe trapframePerm)
  else if v = stackVpn then some (mkPte (addr us) userDataPerm)
  else none

end Pke
