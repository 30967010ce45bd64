import Pke.Runs.Wait

/-!
# Pages that are used again

`free_page` writes the link of the free list over the first eight bytes of a page and
`alloc_page` writes nothing, so a process reads in a new page what the last owner stored
behind them. Two states that differ in one page `f` of a process only are compared, from the
call of `free_page` for `f` on: `trap_free_put` says that the call makes them equal if the
contents of `f` differ in the first word only, and `HeapPair.leaks` that a child of the
process reads the second word.
-/

namespace Pke

open Lib Lib.Radix

variable {L : Layout} {s s' : Kernel} {f : Ppn} {x : Idx → Word} {m : Mem}

/-! ## Another page in the same place -/

theorem store64_update {a v : Word} (ha : ppn a ≠ f) :
    store64 (Function.update m f x) a v = Function.update (store64 m a v) f x := by
  unfold store64
  rw [Function.update_of_ne ha, Function.update_comm ha]

theorem load64_update {a : Word} (ha : ppn a ≠ f) :
    load64 (Function.update m f x) a = load64 m a := by
  unfold load64
  rw [Function.update_of_ne ha]

theorem saveRegs_update {b : Word} {regs : Regs} (hb : ∀ r, ppn (frameSlot b r) ≠ f)
    (l : List Reg) :
    saveRegs (Function.update m f x) b regs l = Function.update (saveRegs m b regs l) f x := by
  induction l generalizing m with
  | nil => rfl
  | cons r l ih =>
    rw [saveRegs, List.foldl_cons, ← saveRegs, store64_update (hb r), ih]
    rfl

/-- The machine with the page `f` replaced. -/
def Machine.put (M : Machine) (f : Ppn) (x : Idx → Word) : Machine :=
  { M with mem := Function.update M.mem f x }

/-- The trap vector reads and writes the trapframe only. -/
theorem Machine.run_put {M : Machine}
    (hb : ∀ o < 4096, ppn (M.csr .sscratch + BitVec.ofNat 64 o) ≠ f) :
    (M.put f x).run smodeTrapVector = (M.run smodeTrapVector).put f x := by
  have hreg : ∀ r, ppn (frameSlot (M.csr .sscratch) r) ≠ f := fun r =>
    hb _ (by have := r.index_lt; unfold Reg.offset; omega)
  have h72 := hb 72 (by omega)
  have h248 := hb 248 (by omega)
  have h256 := hb 256 (by omega)
  have h272 := hb 272 (by omega)
  unfold smodeTrapVector
  simp only [Machine.run_append, run_storeAllRegisters]
  simp [Machine.exec, Machine.put, Machine.setReg, Machine.setCsr, saveRegs_update hreg,
    store64_update h72, load64_update h248, load64_update h256, load64_update h272]

/-- The kernel with the page `f` replaced. -/
def Kernel.put (s : Kernel) (f : Ppn) (x : Idx → Word) : Kernel :=
  { s with phys := { s.phys with mem := Function.update s.phys.mem f x } }

section Put

variable {c : Pid} {Q : List Pid} {t : TrapInput} {p : Ppn}

theorem enterTrap_put (hp : s.csr .sscratch = addr p) (hf : p ≠ f) :
    enterTrap t (s.put f x) = (enterTrap t s).put f x := by
  have hb : ∀ o < 4096, ppn ((Machine.mk t.regs (Function.update (Function.update (Function.update
      (Function.update s.csr .sepc t.sepc) .scause t.scause) .stval t.stval) .sstatus
      (s.csr .sstatus &&& ~~~SSTATUS_SPP)) s.phys.mem).csr .sscratch + BitVec.ofNat 64 o) ≠ f := by
    intro o ho
    have hcsr : (Function.update (Function.update (Function.update (Function.update s.csr .sepc
        t.sepc) .scause t.scause) .stval t.stval) .sstatus (s.csr .sstatus &&& ~~~SSTATUS_SPP))
        .sscratch = addr p := by simpa using hp
    dsimp only
    rwa [hcsr, ppn_addr_add p (by rw [BitVec.toNat_ofNat]; omega)]
  have hrun := Machine.run_put (x := x) hb
  unfold enterTrap
  dsimp only [Kernel.put]
  dsimp only [Machine.put] at hrun
  rw [hrun]

theorem entered_put (hp : s.csr .sscratch = addr p) (htf : (s.procs c).trapframe = addr p)
    (hf : p ≠ f) : entered t c (s.put f x) = (entered t c s).put f x := by
  have hepc : ppn (tfEpc (s.procs c).trapframe) ≠ f := by
    rwa [tfEpc, htf, ppn_addr_add p (by decide)]
  unfold entered
  rw [enterTrap_put hp hf]
  dsimp only [Kernel.put]
  rw [store64_update hepc]

/-- Entering the kernel does not look at the page `f`. -/
theorem inSyscall_put (hp : s.csr .sscratch = addr p) (htf : (s.procs c).trapframe = addr p)
    (hf : p ≠ f) : inSyscall t c (s.put f x) = (inSyscall t c s).put f x := by
  have hepc : ppn (tfEpc (s.procs c).trapframe) ≠ f := by
    rwa [tfEpc, htf, ppn_addr_add p (by decide)]
  unfold inSyscall
  rw [entered_put hp htf hf]
  dsimp only [Kernel.put]
  rw [load64_update hepc, store64_update hepc]

/-- `free_page` overwrites the first word of the page. -/
theorem Phys.push_update (ph : Phys) (hx : ∀ o, o ≠ 0 → x o = ph.mem f o) :
    ({ ph with mem := Function.update ph.mem f x } : Phys).push f = ph.push f := by
  unfold Phys.push
  dsimp only
  rw [store64_addr, store64_addr, Function.update_idem, Function.update_self]
  congr 2
  funext o
  by_cases ho : o = 0
  · rw [ho, Function.update_self, Function.update_self]
  · rw [Function.update_of_ne ho, Function.update_of_ne ho, hx o ho]

variable {iso : Prop} {fl : List Ppn} {w : Word}

/-- The state after a call of `free_page` for a page that is mapped. -/
theorem trap_free_exact (hm : MemInv iso L s) (hsched : SchedInv s c Q)
    (ht : IsSyscall t SYS_user_free_page)
    (hw : translate s.phys.mem (s.procs c).space.root (vpn (t.regs .a1)) = some w)
    (hexit : trap L t s = .exit s') :
    ∃ q, nodeAt ptePage s.phys.mem (s.procs c).space.root (vpath 2 (vpn (t.regs .a1))) = some q ∧
      s' = afterUnmap L t c q (ptePpn w) (vpn (t.regs .a1)) s := by
  obtain ⟨q, hq, hqw, -⟩ := leafAt_eq_some.mp hw
  have hs' := Prog.wp_exit (trap_unmap hm hsched ht hq (congrArg ptePpn hqw)) hexit
  exact ⟨q, hq, hs'⟩

theorem SchedInv.put (h : SchedInv s c Q) : SchedInv (s.put f x) c Q :=
  ⟨h.current, h.scratch, ⟨h.queue.chain, h.queue.ready⟩, h.notin, h.live, h.ready, h.pids, h.ticks⟩

/-- The state after the call does not depend on the first word of the page. -/
theorem trap_free_put (hm : MemInv iso L s) (hsched : SchedInv s c Q)
    (hs : Space iso L (s.view s.used s.used) s.phys fl) (ht : IsSyscall t SYS_user_free_page)
    (hw : translate s.phys.mem (s.procs c).space.root (vpn (t.regs .a1)) = some w)
    (hU : w &&& PTE_U ≠ 0) (hx : ∀ o, o ≠ 0 → x o = s.phys.mem (ptePpn w) o) {s₁ s₂ : Kernel}
    (h₁ : trap L t s = .exit s₁) (h₂ : trap L t (s.put (ptePpn w) x) = .exit s₂) : s₂ = s₁ := by
  have hc : c ∈ s.used := ((hsched.live c).mp List.mem_cons_self).1
  have hspare := hs.user c hc _ w hw hU
  have hmem : ∀ q, q ≠ ptePpn w → Function.update s.phys.mem (ptePpn w) x q = s.phys.mem q :=
    fun q hq => Function.update_of_ne hq _ _
  have htabs : ∀ q ∈ tablePages s.phys.mem (s.view s.used s.used).roots,
      Function.update s.phys.mem (ptePpn w) x q = s.phys.mem q :=
    fun q hq => hmem q fun heq => hspare.table (heq ▸ hq)
  have hroot : (s.procs c).space.root ∈ (s.view s.used s.used).roots :=
    View.root_mem (V := s.view s.used s.used) hc
  have hs' : Space iso L (s.view s.used s.used) (s.put (ptePpn w) x).phys fl :=
    hs.writeSpare hspare hmem
  obtain ⟨q, hq, rfl⟩ := trap_free_exact hm hsched ht hw h₁
  obtain ⟨q', hq', rfl⟩ := trap_free_exact (s := s.put (ptePpn w) x) ⟨⟨fl, hs'⟩, hm.heap⟩
    hsched.put ht ((translate_congr htabs hroot _).trans hw) h₂
  obtain rfl : q' = q :=
    Option.some.inj (hq'.symm.trans ((nodeAt_congr hroot htabs _ (by simp)).trans hq))
  have hown : (s.procs c).space.own .trapframe ≠ ptePpn w := (hspare.own c hc .trapframe).symm
  have hscratch : s.csr .sscratch = addr ((s.procs c).space.own .trapframe) :=
    hsched.scratch.trans (hs.aligned c hc).trapframe.symm
  have hframe := hm.inSyscall_frameOnly hc hsched.scratch t
  unfold afterUnmap
  rw [inSyscall_put hscratch (hs.aligned c hc).trapframe.symm hown]
  have hpush : ((inSyscall t c s).put (ptePpn w) x).phys.push (ptePpn w) =
      (inSyscall t c s).phys.push (ptePpn w) := Phys.push_update _ fun o ho => by
    rw [hx o ho, hframe.mem _ hown.symm]
  unfold released
  rw [hpush]
  rfl

end Put

/-! ## Two runs -/

theorem Step.deterministic {a : Action} {s₁ s₂ : Kernel} (h₁ : Step L s a s₁) (h₂ : Step L s a s₂) :
    s₂ = s₁ := by
  cases h₁ with
  | trap h₁ =>
    cases h₂ with
    | trap h₂ => exact (Out.exit.inj (h₁.symm.trans h₂)).symm
  | store h₁ =>
    cases h₂ with
    | store h₂ => exact (Option.some.inj (h₁.symm.trans h₂)).symm

theorem Run.deterministic {tr tr' : List (Action × Kernel)} {u u' : Kernel} (h : Run L s tr u)
    (h' : Run L s tr' u') (heq : tr.map Prod.fst = tr'.map Prod.fst) : u' = u := by
  induction h generalizing tr' with
  | nil s =>
    cases h' with
    | nil => rfl
    | cons => cases heq
  | cons ha hr ih =>
    cases h' with
    | nil => cases heq
    | cons ha' hr' =>
      obtain ⟨rfl, htail⟩ := List.cons.inj heq
      obtain rfl := ha.deterministic ha'
      exact ih hr' htail

/-- Process `b` gets the page `v` from `allocate_page` or from a store page fault. -/
structure GetsPage (b : Pid) (v : Vpn) (s : Kernel) (a : Action) (s' : Kernel) : Prop where
  current : s.current = some b
  call : ∃ t, a = .trap t ∧
    (IsSyscall t SYS_user_allocate_page ∨ t.scause = CAUSE_STORE_PAGE_FAULT)
  before : translate s.phys.mem (ppn (s.procs b).pagetable) v = none
  after : translate s'.phys.mem (ppn (s'.procs b).pagetable) v ≠ none

/-- Process `b` does not write to the page `v` in the run. -/
def Unwritten (b : Pid) (v : Vpn) : Kernel → List (Action × Kernel) → Prop
  | _, [] => True
  | s, (a, s') :: tr =>
    (s.current = some b → ∀ va x, a = .store va x → vpn va ≠ v) ∧ Unwritten b v s' tr

/-- Process `b` gets the page `v` in the run and does not write to it from then on. -/
def Obtained (b : Pid) (v : Vpn) : Kernel → List (Action × Kernel) → Prop
  | _, [] => False
  | s, (a, s') :: tr => GetsPage b v s a s' ∧ Unwritten b v s' tr ∨ Obtained b v s' tr

/-- From the states `s` and `s'` on, in which process `a` calls `free_page`, two runs with
    the same actions: what another process reads in a page that it got and has not written
    is the same in both. -/
def NoLeak (L : Layout) (a : Pid) (t : TrapInput) (s s' : Kernel) : Prop :=
  ∀ s₁ s₁' tr tr' u u', Run L s ((.trap t, s₁) :: tr) u → Run L s' ((.trap t, s₁') :: tr') u' →
    tr.map Prod.fst = tr'.map Prod.fst → ∀ b, b ≠ a → ∀ v, Obtained b v s₁ tr →
      ∀ va, vpn va = v → readByte u b va = readByte u' b va

/-! ## A page that leaks -/

section Leak

variable {c b : Pid} {Q : List Pid} {t : TrapInput} {iso : Prop} {fl fl' : List Ppn} {v : Vpn}

/-- The new page of process `c` is the first free page, which no other entry maps. -/
theorem GrantStep.releasable {g va : Word} (hg : GrantStep iso L c (vpn va) g s fl s' fl')
    (hs : Space iso L (s.view s.used s.used) s.phys fl) (hc : c ∈ s.used)
    (hf : fl.head? = some f) :
    translate s'.phys.mem (s.procs c).space.root (vpn va) = some (mkPte (addr f) userDataPerm) ∧
      Releasable s' c va := by
  obtain ⟨pa, htaken, hleaf⟩ := hg.leaf
  obtain rfl : pa = addr f := by
    rcases htaken with ⟨hnil, -, -⟩ | ⟨p, hpa, -, hp, -⟩
    · rw [hnil] at hf
      cases hf
    · rw [hpa, Option.some.inj (hp.symm.trans hf)]
  have hself := (hleaf c hc (vpn va)).trans (if_pos ⟨rfl, rfl⟩)
  refine ⟨hself, mkPte (addr f) userDataPerm, by rw [hg.procs]; exact hself, userData_leaf_user _,
    fun j hj v w hw heq => ?_⟩
  rw [hg.procs] at hj hw
  have hw' := (hleaf j hj v).symm.trans hw
  split_ifs at hw' with hv
  · exact hv
  · rw [ptePpn_mkPte _ (by decide), ppn_addr] at heq
    exact absurd (heq ▸ List.mem_of_mem_head? hf) (hs.leaf_not_free hj hw')

/-- `free_page` leaves all but the first word of the page as it was. -/
theorem released_word {ph : Phys} {q : Ppn} (hq : q ≠ f) {o : Idx} (ho : o ≠ 0) :
    (released ph q f v).mem f o = ph.mem f o := by
  unfold released
  rw [writeLeaf_of_ne hq.symm]
  unfold Phys.push
  dsimp only
  rw [store64_addr, Function.update_self, Function.update_of_ne ho]

theorem released_freeList {ph : Phys} {q : Ppn} (h : FreeList ph fl) (hf : f ∉ fl) (h0 : f ≠ 0)
    (hq : q ∉ f :: fl) : FreeList (released ph q f v) (f :: fl) := by
  refine FreeList.frame (s := ph.push f) (h.push hf h0) rfl fun p hp => ?_
  exact writeLeaf_of_ne (s := ph.push f) (fun heq : p = q => hq (heq ▸ hp)) _

/-- A call of `yield` writes to trapframes only. -/
theorem trap_yield_frame (hm : MemInv iso L s) (hsched : SchedInv s c Q)
    (ht : IsSyscall t SYS_user_yield) (hrun : trap L t s = .exit s') :
    s'.phys.gFreeMemList = s.phys.gFreeMemList ∧
      ∀ p, (∀ i ∈ s.used, p ≠ (s.procs i).space.own .trapframe) → s'.phys.mem p = s.phys.mem p := by
  have hc : c ∈ s.used := ((hsched.live c).mp List.mem_cons_self).1
  have hframe := hm.inSyscall_frameOnly hc hsched.scratch t
  have hswitch : Prog.wp (trap L t) (fun _ _ => True) (Switched L (inSyscall t c s)) (fun _ => True)
      s := by
    unfold Prog.wp
    rw [trap_eq hsched.current (hm.canEnter hc), dispatchTrap, if_pos ht.1,
      handleSyscall_resume hsched, show doSyscall L (t.regs .a0) (t.regs .a1) (t.regs .a2) =
        sysUserYield L by rw [ht.2]; rfl]
    have hyield : Prog.wp (sysUserYield L) (fun _ _ => False) (Switched L (inSyscall t c s))
        (fun _ => True) (inSyscall t c s) :=
      wp_currentProc hsched.current (requeue_switched (by rw [hframe.used]; exact hc))
    exact Prog.wp_bind.mpr (Prog.wp_mono hyield (fun _ _ h => h.elim) (fun _ h => h) fun _ h => h)
  obtain ⟨q, s₁, hsame, hq, rfl⟩ := Prog.wp_exit hswitch hrun
  have hq' : q ∈ s.used := by rwa [hsame.used, hframe.used] at hq
  have hspace : (s₁.procs q).space = (s.procs q).space := by rw [hsame.space, hframe.procs]
  have hafter := afterSwitch_frameOnly (L := L) (s := s₁) (c := q) (by
    rw [hspace]
    exact hm.aligned hq')
  refine ⟨?_, fun p hp => ?_⟩
  · rw [hafter.phys, hsame.phys, hframe.phys]
  · rw [hafter.mem p (by rw [hspace]; exact hp q hq'), hsame.phys, hframe.mem p (hp c hc)]

/-- What a process reaches in a page that was mapped for it to read and write. -/
theorem userTranslate_userData {pt va perm : Word} (hva : canonical va)
    (hleaf : translate m (ppn pt) (vpn va) = some (mkPte (addr f) userDataPerm))
    (hperm : perm = PTE_R ∨ perm = PTE_W) :
    userTranslate m pt va perm = some (addr f + (va &&& 0xFFF#64)) := by
  have hflag : mkPte (addr f) userDataPerm &&& (PTE_U ||| perm) = PTE_U ||| perm := by
    rcases hperm with rfl | rfl <;> rw [mkPte_and_flag _ _ (by decide)] <;> decide
  rw [userTranslate, if_pos hva, hleaf, Option.bind_some, if_pos hflag, PTE2PA_eq,
    ptePpn_mkPte _ (by decide), ppn_addr]

/-- The page was freed: it is the first free page, and its second word is `w`. -/
structure Recycled (s : Kernel) (b : Pid) (f : Ppn) (fl : List Ppn) (w : Word) : Prop where
  mem : MemInv False sampleLayout s
  free : FreeList s.phys (f :: fl)
  word : s.phys.mem f 1 = w
  heap : s.gUfreePage = USER_FREE_ADDRESS_START + PGSIZE
  unmapped : translate s.phys.mem (s.procs b).space.root
    (vpn (USER_FREE_ADDRESS_START + PGSIZE)) = none

/-- The first process runs, with one page `f` of heap, and its child `b` waits to run. -/
structure HeapPair (s : Kernel) (b : Pid) (f : Ppn) (fl : List Ppn) : Prop where
  sched : SchedInv s 0 [b]
  space : Space False sampleLayout (s.view s.used s.used) s.phys fl
  length : 2 ≤ fl.length
  page : translate s.phys.mem (s.procs 0).space.root (vpn USER_FREE_ADDRESS_START) =
    some (mkPte (addr f) userDataPerm)
  sole : Releasable s 0 USER_FREE_ADDRESS_START
  managed : Managed s.phys f
  heap : s.gUfreePage = USER_FREE_ADDRESS_START + PGSIZE
  unmapped : translate s.phys.mem (s.procs b).space.root
    (vpn (USER_FREE_ADDRESS_START + PGSIZE)) = none

namespace HeapPair

theorem mem (h : HeapPair s b f fl) : MemInv False sampleLayout s :=
  ⟨⟨fl, h.space⟩, by rw [h.heap]; decide⟩

theorem used (h : HeapPair s b f fl) : (0 : Pid) ∈ s.used ∧ b ∈ s.used :=
  ⟨((h.sched.live 0).mp List.mem_cons_self).1,
    ((h.sched.live b).mp (List.mem_cons_of_mem _ List.mem_cons_self)).1⟩

theorem ne (h : HeapPair s b f fl) : b ≠ 0 := fun heq =>
  h.sched.notin (heq ▸ List.mem_cons_self)

theorem spare (h : HeapPair s b f fl) : (s.view s.used s.used).Spare s.phys fl f := by
  have hspare := h.space.user 0 h.used.1 _ _ h.page (userData_leaf_user _)
  rwa [ptePpn_mkPte _ (by decide), ppn_addr] at hspare

/-- The contents of the page do not matter. -/
theorem put (h : HeapPair s b f fl) (x : Idx → Word) : HeapPair (s.put f x) b f fl := by
  have hmem : ∀ q, q ≠ f → Function.update s.phys.mem f x q = s.phys.mem q :=
    fun q hq => Function.update_of_ne hq _ _
  have hleaf : ∀ j ∈ s.used, ∀ v, translate (Function.update s.phys.mem f x)
      (s.procs j).space.root v = translate s.phys.mem (s.procs j).space.root v := fun j hj v =>
    leaf_write (V := s.view s.used s.used) hmem h.spare.table hj v
  obtain ⟨w, hw, hU, hsole⟩ := h.sole
  refine ⟨h.sched.put, h.space.writeSpare h.spare hmem, h.length, (hleaf 0 h.used.1 _).trans h.page,
    ⟨w, (hleaf 0 h.used.1 _).trans hw, hU, fun j hj v w' hw' => ?_⟩, h.managed, h.heap,
    (hleaf b h.used.2 _).trans h.unmapped⟩
  exact hsole j hj v w' ((hleaf j hj v).symm.trans hw')

/-- The first process frees its page. -/
theorem freed (h : HeapPair s b f fl) :
    ∃ s', trap sampleLayout (call SYS_user_free_page USER_FREE_ADDRESS_START) s = .exit s' ∧
      SchedInv s' 0 [b] ∧ Recycled s' b f fl (s.phys.mem f 1) := by
  obtain ⟨t, hcall⟩ : ∃ t, t = call SYS_user_free_page USER_FREE_ADDRESS_START := ⟨_, rfl⟩
  have ht : IsSyscall t SYS_user_free_page := by rw [hcall]; exact ⟨rfl, rfl⟩
  have ha1 : t.regs .a1 = USER_FREE_ADDRESS_START := by rw [hcall]; rfl
  have hppn : ptePpn (mkPte (addr f) userDataPerm) = f := by
    rw [ptePpn_mkPte _ (by decide), ppn_addr]
  have hpage := h.page
  rw [← ha1] at hpage
  obtain ⟨s', hexit, hfreed⟩ := trap_free (t := t) h.mem h.sched h.space ht hpage
    (userData_leaf_user _) (by rw [hppn]; exact h.spare.table) (by rw [hppn]; exact h.spare.free)
    (by rw [ha1]; decide) (by rw [ha1]; decide) (by rw [hppn]; exact h.managed)
  have hok : StepOk False s (.trap t) :=
    .of_releasable h.sched.current (ha1.symm ▸ h.sole)
  have hleft := (Step.trap hexit).left h.mem h.sched hok
  have hsched := h.sched.kept (.trap hexit) hfreed.procs hfreed.current
  have hroots : (s.procs b).space.root ≠ (s.procs 0).space.root := fun heq =>
    h.ne (h.space.root_inj b h.used.2 0 h.used.1 heq)
  -- the state is known word for word
  obtain ⟨q, hq, hs'⟩ := trap_free_exact h.mem h.sched ht hpage hexit
  rw [hppn, afterUnmap] at hs'
  have hqtab : q ∈ tablePages s.phys.mem (s.view s.used s.used).roots :=
    mem_nodes (View.root_mem (V := s.view s.used s.used) h.used.1) (vpath_length 2 _).le hq
  have hqf : q ∉ f :: fl := by
    rintro (_ | ⟨_, hmem⟩)
    · exact h.spare.table hqtab
    · exact h.space.tables.apart q hqtab hmem
  have hqne : q ≠ f := fun heq => hqf (List.mem_cons.mpr (Or.inl heq))
  have hown := h.spare.own 0 h.used.1 .trapframe
  have hin := h.mem.inSyscall_frameOnly h.used.1 h.sched.scratch t
  have hret := returned_frameOnly (L := sampleLayout) (c := 0) (s := { inSyscall t 0 s with
    phys := released (inSyscall t 0 s).phys q f (vpn (t.regs .a1)) })
    (h.space.aligned 0 h.used.1) 0
  have hfree : FreeList (inSyscall t 0 s).phys _ := h.space.tables.free.frame (by rw [hin.phys])
    fun p hp => hin.mem p fun heq => (h.space.own_apart 0 h.used.1 .trapframe).1 (heq ▸ hp)
  have hfree' := released_freeList (v := vpn (t.regs .a1)) hfree h.spare.free
    (h.space.managed_ne_zero h.managed) hqf
  rw [← hs'] at hret
  refine ⟨s', hcall ▸ hexit, hsched, hleft.mem, ?_, ?_, ?_, ?_⟩
  · refine hfree'.frame (by rw [hret.phys]) fun p hp => hret.mem p fun heq => ?_
    rcases List.mem_cons.mp (heq ▸ hp) with hpf | hpfl
    · exact hown hpf.symm
    · exact (h.space.own_apart 0 h.used.1 .trapframe).1 hpfl
  · rw [hret.mem f hown]
    dsimp only
    rw [released_word hqne (o := 1) (by decide), hin.mem f hown]
  · rw [hleft.moved.heap, h.heap, hcall]
    decide
  · rw [hfreed.procs, hfreed.leaf b h.used.2, if_neg fun hc => hroots hc.1]
    exact h.unmapped

end HeapPair

/-- Then it yields, and its child runs. -/
theorem Recycled.yielded {w : Word} (h : Recycled s b f fl w) (hsched : SchedInv s 0 [b]) :
    ∃ s', trap sampleLayout (call SYS_user_yield 0) s = .exit s' ∧ SchedInv s' b [0] ∧
      Recycled s' b f fl w := by
  have h0 : (0 : Pid) ∈ s.used := ((hsched.live 0).mp List.mem_cons_self).1
  have hb : b ∈ s.used := ((hsched.live b).mp (List.mem_cons_of_mem _ List.mem_cons_self)).1
  have hne : b ≠ 0 := fun heq => hsched.notin (heq ▸ List.mem_cons_self)
  obtain ⟨s', q, Q', hexit, hrot⟩ :=
    trap_yield_mem (t := call SYS_user_yield 0) h.mem hsched ⟨rfl, rfl⟩
  obtain ⟨rfl, rfl⟩ : b = q ∧ [0] = Q' := List.cons.inj hrot.order
  have hok : TrapOk False s 0 (call SYS_user_yield 0) :=
    .of_not_free fun hf => absurd hf.2 (by decide)
  have hleft := (Prog.wp_exit (trap_mem h.mem hsched hok) hexit).2
  obtain ⟨hhead, hmem⟩ := trap_yield_frame h.mem hsched ⟨rfl, rfl⟩ hexit
  obtain ⟨fl', hs⟩ := h.mem.space
  obtain rfl : fl' = f :: fl := Chain.unique addr_injective hs.tables.free h.free
  have hfree : ∀ p ∈ f :: fl, s'.phys.mem p = s.phys.mem p := fun p hp =>
    hmem p fun i hi heq => (hs.own_apart i hi .trapframe).1 (heq ▸ hp)
  refine ⟨s', hexit, hrot.inv, hleft.mem, h.free.frame hhead hfree, ?_, ?_, ?_⟩
  · rw [hfree f List.mem_cons_self, h.word]
  · rw [hleft.moved.heap, h.heap]
    decide
  · rw [hleft.moved.space b hb, hleft.moved.other b hb hne]
    exact h.unmapped

/-- The child gets the page, and reads what was left in it. -/
theorem Recycled.obtained {w : Word} (h : Recycled s b f fl w) (hsched : SchedInv s b [0])
    (hlen : 2 ≤ fl.length) :
    ∃ s', trap sampleLayout (call SYS_user_allocate_page 0) s = .exit s' ∧
      GetsPage b (vpn (USER_FREE_ADDRESS_START + PGSIZE)) s
        (.trap (call SYS_user_allocate_page 0)) s' ∧
      readByte s' b (USER_FREE_ADDRESS_START + PGSIZE + 8) = some (w.setWidth 8) := by
  have hb : b ∈ s.used := ((hsched.live b).mp List.mem_cons_self).1
  obtain ⟨fl', hs⟩ := h.mem.space
  obtain rfl : fl' = f :: fl := Chain.unique addr_injective hs.tables.free h.free
  have hnone := h.unmapped
  rw [← h.heap] at hnone
  obtain ⟨s', hexit, fl₁, hgrant⟩ := Prog.exits_of_wp
    (trap_allocate (t := call SYS_user_allocate_page 0) h.mem hsched hs ⟨rfl, rfl⟩
      fun hf => hf.elim) fun e hn => hn.1 ⟨by rw [h.heap]; decide, hnone,
        Or.inl (by rw [List.length_cons]; omega)⟩
  obtain ⟨hleaf, -⟩ := hgrant.releasable hs hb rfl
  have hword : load64 s'.phys.mem (addr f + 8) = w := by
    rw [show (8 : Word) = BitVec.ofNat 64 (8 * 1) from rfl, load64_word _ _ (by omega),
      hgrant.page f rfl]
    exact h.word
  rw [h.heap] at hleaf
  refine ⟨s', hexit, ⟨hsched.current, ⟨_, rfl, Or.inl ⟨rfl, rfl⟩⟩, h.unmapped, ?_⟩, ?_⟩
  · rw [hgrant.procs]
    exact fun hn => Option.some_ne_none _ (hleaf.symm.trans hn)
  · have htrans : userTranslate s'.phys.mem (s'.procs b).pagetable
        (USER_FREE_ADDRESS_START + PGSIZE + 8) PTE_R = some (addr f + 8) := by
      rw [hgrant.procs]
      exact userTranslate_userData (by decide) hleaf (by decide)
    have hoff : (addr f + 8 : Word).toNat % 8 = 0 := by
      rw [addr_add_toNat f (by decide), show (8 : Word).toNat = 8 from rfl]
      omega
    rw [readByte, htrans, Option.map_some, load8, hword, hoff]
    simp

/-- The child of the first process has no page at the second address of the heap. -/
theorem forked_unmapped {child : Pid}
    (hb : SingleBoot False sampleLayout (sampleHost 5 8) (sampleSegment 5) .CODE s)
    (hfork : ForkStep False sampleLayout 0 child s fl s' fl') :
    translate s'.phys.mem (s'.procs child).space.root
      (vpn (USER_FREE_ADDRESS_START + PGSIZE)) = none := by
  have hchild : child ∈ s'.used := by
    rw [hfork.used]
    exact Set.mem_insert _ _
  by_contra hsome
  obtain ⟨w, hw⟩ := Option.ne_none_iff_exists'.mp hsome
  by_cases hU : w &&& PTE_U = 0
  · have htf := hfork.space.trapframe_toNat (V := s'.view s'.used s'.used) hchild
    rcases hfork.space.kernel child hchild _ w hw hU with ⟨hv, -⟩ | ⟨hv, -⟩
    · exact vpn_ne (by decide) (by omega)
        (by rw [show (USER_FREE_ADDRESS_START + PGSIZE).toNat / 4096 = 1025 from rfl]; omega) hv
    · exact absurd hv (by decide)
  · obtain ⟨k, va, hk, htarget, hva⟩ := hfork.born.pages _ w hw hU
    rw [hb.total] at hk
    rw [hb.targets (by decide) (Or.inl rfl) hk] at htarget
    split_ifs at htarget
    · obtain rfl := Option.some.inj htarget
      exact absurd hva (by decide)
    · obtain rfl := Option.some.inj htarget
      exact absurd hva (by decide)

/-- The first process forks, and gets a page of heap. -/
theorem heapPair_sample : ∃ s₀ s₁ s b f fl,
    sStart sampleLayout (sampleHost 5 8) (coldStart (sampleHost 5 8) (powerOn 0)) = .exit s₀ ∧
    Step sampleLayout s₀ (.trap (call SYS_user_fork 0)) s₁ ∧
    Step sampleLayout s₁ (.trap (call SYS_user_allocate_page 0)) s ∧
    Reach sampleLayout (sampleHost 5 8) (StepOk False) s ∧ HeapPair s b f fl := by
  obtain ⟨s₀, hboot, hb⟩ := sampleBoot
  obtain ⟨s₁, fl₀, fl₁, hexit₁, hfork, hlen₁⟩ := sampleFork hb
  have hpair := forkedPair_of_fork hb.memInv hb.booted.sched hb.firstFree_eq hexit₁
  generalize (1 : Pid) = b at hfork hpair
  have h0 := hb.mem_used
  have hb0 : b ≠ 0 := fun heq => hfork.fresh (heq ▸ h0)
  have hused : (0 : Pid) ∈ s₁.used ∧ b ∈ s₁.used := by
    rw [hfork.used]
    exact ⟨Set.mem_insert_of_mem _ h0, Set.mem_insert _ _⟩
  have hheap : s₁.gUfreePage = USER_FREE_ADDRESS_START := hfork.heap.trans hb.heap
  have hnone : translate s₁.phys.mem (s₁.procs 0).space.root (vpn s₁.gUfreePage) = none := by
    rw [hheap, (hfork.same 0 hb0.symm).1, hfork.leaf 0 h0]
    exact hb.unmapped (by decide) (by decide) (by decide)
  obtain ⟨s, hexit, fl, hgrant⟩ := Prog.exits_of_wp
    (trap_allocate (t := call SYS_user_allocate_page 0) hpair.mem hpair.sched hfork.space ⟨rfl, rfl⟩
      fun hf => hf.elim) fun e hn => hn.1 ⟨by rw [hheap]; decide, hnone, Or.inl (by omega)⟩
  have hlen := hgrant.length
  obtain ⟨f, hf⟩ : ∃ f, fl₁.head? = some f := by
    match fl₁, hlen₁ with
    | p :: _, _ => exact ⟨p, rfl⟩
  obtain ⟨hleaf, hsole⟩ := hgrant.releasable hfork.space hused.1 hf
  have hsched := hpair.sched.kept (.trap hexit) hgrant.procs hgrant.current
  have hok : ∀ n s, n ≠ SYS_user_free_page → StepOk False s (.trap (call n 0)) := fun n s hn =>
    .of_not_free fun hf => absurd hf.2 hn
  obtain ⟨pa, -, hall⟩ := hgrant.leaf
  rw [hheap] at hleaf hsole
  refine ⟨s₀, s₁, s, b, f, fl, hboot, .trap hexit₁, .trap hexit, ?_, hsched, hgrant.space, by omega,
    by rw [hgrant.procs]; exact hleaf, hsole, ?_, by rw [hgrant.heap, hheap], ?_⟩
  · exact .step (.step (.boot hboot) (hok _ _ (by decide)) (.trap hexit₁)) (hok _ _ (by decide))
      (.trap hexit)
  · exact hgrant.managed f (hfork.space.managed f (Or.inl (List.mem_of_mem_head? hf)))
  · rw [hgrant.procs, hall b hused.2, if_neg fun hc => hb0 hc.1]
    exact forked_unmapped hb hfork

/-- **Recycled pages.** Process `a` frees a page of its own in two runs whose states differ
    in the contents of that page only. If the contents agree from the ninth byte on, the runs
    cannot be told apart afterwards. -/
theorem recycledPage_hidden {h : Host} (hload : h.LoadsOk Set.univ)
    (hs : Reach L h (StepOk False) s) {a : Pid} (hcur : s.current = some a)
    (ht : IsSyscall t SYS_user_free_page) {w : Word}
    (hw : translate s.phys.mem (ppn (s.procs a).pagetable) (vpn (t.regs .a1)) = some w)
    (hU : w &&& PTE_U ≠ 0) (hx : ∀ o, o ≠ 0 → x o = s.phys.mem (ptePpn w) o) :
    NoLeak L a t s (s.put (ptePpn w) x) := by
  obtain ⟨hm, c, Q, hsched⟩ := hs.mem hload
  obtain rfl : c = a := Option.some.inj (hsched.current.symm.trans hcur)
  obtain ⟨fl, hspace⟩ := hm.space
  intro s₁ s₁' tr tr' u u' hrun hrun' hacts b _ v _ va _
  obtain _ | ⟨hstep, hrest⟩ := hrun
  obtain _ | ⟨hstep', hrest'⟩ := hrun'
  cases hstep with
  | trap h₁ =>
    cases hstep' with
    | trap h₂ =>
      obtain rfl := trap_free_put hm hsched hspace ht hw hU hx h₁ h₂
      rw [hrest.deterministic hrest' hacts]

theorem recycledPage_hidden_sample : ∃ s w, Reach sampleLayout (sampleHost 5 8) (StepOk False) s ∧
    s.current = some 0 ∧ translate s.phys.mem (ppn (s.procs 0).pagetable)
      (vpn USER_FREE_ADDRESS_START) = some w ∧
    NoLeak sampleLayout 0 (call SYS_user_free_page USER_FREE_ADDRESS_START) s
      (s.put (ptePpn w) (Function.update (s.phys.mem (ptePpn w)) 0 7)) := by
  obtain ⟨-, -, s, b, f, fl, -, -, -, hreach, h⟩ := heapPair_sample
  refine ⟨s, mkPte (addr f) userDataPerm, hreach, h.sched.current, h.page, ?_⟩
  exact recycledPage_hidden sampleHost_loads hreach h.sched.current ⟨rfl, rfl⟩ h.page
    (userData_leaf_user _) fun o ho => Function.update_of_ne ho _ _

/-- The child reads the second word of the page. -/
theorem HeapPair.leaks (h : HeapPair s b f fl) : ∃ s₁ s₂ s₃,
    Run sampleLayout s [(.trap (call SYS_user_free_page USER_FREE_ADDRESS_START), s₁),
      (.trap (call SYS_user_yield 0), s₂), (.trap (call SYS_user_allocate_page 0), s₃)] s₃ ∧
    Obtained b (vpn (USER_FREE_ADDRESS_START + PGSIZE)) s₁
      [(.trap (call SYS_user_yield 0), s₂), (.trap (call SYS_user_allocate_page 0), s₃)] ∧
    readByte s₃ b (USER_FREE_ADDRESS_START + PGSIZE + 8) =
      some ((s.phys.mem f 1).setWidth 8) := by
  obtain ⟨s₁, hexit₁, hsched₁, hr₁⟩ := h.freed
  obtain ⟨s₂, hexit₂, hsched₂, hr₂⟩ := hr₁.yielded hsched₁
  obtain ⟨s₃, hexit₃, hgets, hread⟩ := hr₂.obtained hsched₂ h.length
  exact ⟨s₁, s₂, s₃, .cons (.trap hexit₁) (.cons (.trap hexit₂) (.cons (.trap hexit₃) (.nil _))),
    Or.inr (Or.inl ⟨hgets, trivial⟩), hread⟩

theorem low_byte (w : Word) (x : BitVec 8) :
    ((w &&& ~~~0xFF#64) ||| x.setWidth 64).setWidth 8 = x := by
  ext i hi
  simp

/-- A store to the second word of the page. -/
theorem HeapPair.store (h : HeapPair s b f fl) (x : BitVec 8) :
    ∃ y : Idx → Word, userStore (USER_FREE_ADDRESS_START + 8) x s = some (s.put f y) ∧
      (y 1).setWidth 8 = x := by
  have htrans : userTranslate s.phys.mem (s.procs 0).pagetable (USER_FREE_ADDRESS_START + 8) PTE_W =
      some (addr f + 8) := userTranslate_userData (by decide) h.page (by decide)
  have hppn : ppn (addr f + 8) = f := ppn_addr_add f (by decide)
  have hidx : idx (addr f + 8) = 1 := (idx_addr_add f (by decide)).trans (by decide)
  have hoff : (addr f + 8 : Word).toNat % 8 = 0 := by
    rw [addr_add_toNat f (by decide), show (8 : Word).toNat = 8 from rfl]
    omega
  refine ⟨Function.update (s.phys.mem f) 1 ((s.phys.mem f 1 &&& ~~~0xFF#64) ||| x.setWidth 64), ?_,
    ?_⟩
  · have hstore : store8 s.phys.mem (addr f + 8) x = Function.update s.phys.mem f
        (Function.update (s.phys.mem f) 1 ((s.phys.mem f 1 &&& ~~~0xFF#64) ||| x.setWidth 64)) := by
      unfold store8 store64 load64
      simp only [hppn, hidx, hoff, Nat.mul_zero, BitVec.shiftLeft_zero]
    refine Option.bind_eq_some_iff.mpr ⟨0, h.sched.current,
      Option.bind_eq_some_iff.mpr ⟨_, htrans, ?_⟩⟩
    rw [hstore]
    rfl
  · rw [Function.update_self, low_byte]

/-- The first process stores a 1 or a 2 in its page of heap and frees it; its child gets the
    page and reads the byte. -/
theorem recycledPage_leaks : ∃ s₀ s₁ s₂ s s' f x,
    sStart sampleLayout (sampleHost 5 8) (coldStart (sampleHost 5 8) (powerOn 0)) = .exit s₀ ∧
    Run sampleLayout s₀ [(.trap (call SYS_user_fork 0), s₁),
      (.trap (call SYS_user_allocate_page 0), s₂), (.store (USER_FREE_ADDRESS_START + 8) 1, s)] s ∧
    Run sampleLayout s₀ [(.trap (call SYS_user_fork 0), s₁),
      (.trap (call SYS_user_allocate_page 0), s₂),
      (.store (USER_FREE_ADDRESS_START + 8) 2, s')] s' ∧
    translate s.phys.mem (ppn (s.procs 0).pagetable) (vpn USER_FREE_ADDRESS_START) =
      some (mkPte (addr f) userDataPerm) ∧ s' = s.put f x ∧
    ¬ NoLeak sampleLayout 0 (call SYS_user_free_page USER_FREE_ADDRESS_START) s s' := by
  obtain ⟨s₀, s₁, s₂, b, f, fl, hboot, hfork, halloc, -, h⟩ := heapPair_sample
  obtain ⟨x, hx, hx1⟩ := h.store 1
  obtain ⟨y, hy, hy1⟩ := h.store 2
  refine ⟨s₀, s₁, s₂, s₂.put f x, s₂.put f y, f, y, hboot,
    .cons hfork (.cons halloc (.cons (.store hx) (.nil _))),
    .cons hfork (.cons halloc (.cons (.store hy) (.nil _))), (h.put x).page, ?_, fun hno => ?_⟩
  · unfold Kernel.put
    dsimp only
    rw [Function.update_idem]
  obtain ⟨u₁, u₂, u₃, hrun, hgot, hread⟩ := (h.put x).leaks
  obtain ⟨u₁', u₂', u₃', hrun', -, hread'⟩ := (h.put y).leaks
  have heq := hno _ _ _ _ _ _ hrun hrun' rfl b h.ne _ hgot
    (USER_FREE_ADDRESS_START + PGSIZE + 8) (by decide)
  have hpage : ∀ z : Idx → Word, (s₂.put f z).phys.mem f 1 = z 1 := fun z =>
    congrFun (Function.update_self _ _ _) 1
  rw [hread, hread', hpage, hpage, hx1, hy1] at heq
  cases heq

end Leak

end Pke
