import Pke.Space.Syscalls
import Pke.Sched.Boot

/-!
# Every step keeps memory in order

`TrapOk` is what a trap has to meet for memory to stay in order: see
`Pke.Space.Syscalls`. `Step.mem` says that every step of the running system that
meets it keeps `MemInv`; stores need no condition.
-/

namespace Pke

open Lib

variable {iso : Prop} {L : Layout} {N : Touched} {g : Word} {b s s' : Kernel} {c : Pid}
  {t : TrapInput} {Q : List Pid}

/-! ## The condition on a trap -/

/-- The trap is a system call with the number `n`. -/
def IsSyscall (t : TrapInput) (n : Word) : Prop := t.scause = CAUSE_USER_ECALL ∧ t.regs .a0 = n

instance (t : TrapInput) (n : Word) : Decidable (IsSyscall t n) :=
  inferInstanceAs (Decidable (_ ∧ _))

/-- What a trap of process `c` has to meet. -/
structure TrapOk (iso : Prop) (s : Kernel) (c : Pid) (t : TrapInput) : Prop where
  free : IsSyscall t SYS_user_free_page → Releasable s c (t.regs .a1)
  take : iso → IsSyscall t SYS_user_allocate_page ∨ t.scause = CAUSE_STORE_PAGE_FAULT →
    s.phys.gFreeMemList ≠ 0
  fork : iso → IsSyscall t SYS_user_fork → ¬ s.HasCode c

/-- Where isolation is not asked for, only `free_page` has a condition. -/
theorem TrapOk.of_not_free (ht : ¬ IsSyscall t SYS_user_free_page) : TrapOk False s c t :=
  ⟨fun hfree => absurd hfree ht, fun hf => hf.elim, fun hf => hf.elim⟩

theorem FrameOnly.translate_eq {fl : List Ppn} (h : FrameOnly c s s') (hc : c ∈ s.used)
    (hs : Space iso L (s.view s.used s.used) s.phys fl) {j : Pid} (hj : j ∈ s.used) (v : Vpn) :
    Pke.translate s'.phys.mem (ppn (s.procs j).pagetable) v =
      Pke.translate s.phys.mem (ppn (s.procs j).pagetable) v :=
  leaf_write (V := s.view s.used s.used) h.mem (hs.own_apart c hc .trapframe).2.1 hj v

theorem FrameOnly.releasable {fl : List Ppn} (h : FrameOnly c s s') (hc : c ∈ s.used)
    (hs : Space iso L (s.view s.used s.used) s.phys fl) {va : Word} (hva : Releasable s c va) :
    Releasable s' c va := by
  obtain ⟨w, hw, hU, hsole⟩ := hva
  unfold Releasable
  rw [h.procs]
  refine ⟨w, (h.translate_eq hc hs hc _).trans hw, hU, fun j hj v w' hw' => ?_⟩
  rw [h.translate_eq hc hs hj] at hw'
  exact hsole j hj v w' hw'

theorem FrameOnly.hasCode {fl : List Ppn} (h : FrameOnly c s s') (hc : c ∈ s.used)
    (hs : Space iso L (s.view s.used s.used) s.phys fl) : s'.HasCode c ↔ s.HasCode c := by
  have hhi : (s.procs c).totalMappedRegion ≤ 256 := (hs.ready c hc).regions.hi
  have hinfo := h.info hc hs hc
  unfold Kernel.HasCode
  rw [h.procs]
  refine exists_congr fun k => and_congr_right fun hk => ?_
  rw [regionSeg, regionSecond_congr (a := (s.procs c).space) (hs.aligned c hc) hinfo (by omega),
    regionSeg]

/-- Saving the registers of the process does not matter for the condition. -/
theorem TrapOk.frameOnly (hok : TrapOk iso s c t) (h : FrameOnly c s s') (hc : c ∈ s.used)
    (hm : MemInv iso L s) : TrapOk iso s' c t := by
  obtain ⟨⟨fl, hs⟩, -⟩ := hm
  refine ⟨fun hf => h.releasable hc hs (hok.free hf), fun hi ht => ?_, fun hi hf hcode => ?_⟩
  · rw [h.phys]
    exact hok.take hi ht
  · exact hok.fork hi hf ((h.hasCode hc hs).mp hcode)

/-! ## System calls -/

/-- Back in user mode, from a trap that was entered in the state `b`. -/
structure Left (iso : Prop) (L : Layout) (N : Touched) (g : Word) (W : Set Pid) (c : Pid)
    (b s : Kernel) : Prop where
  mem : MemInv iso L s
  moved : Moved L N g W c b s

/-- The handler returns or, if `X`, leaves for user mode. -/
abbrev Handles (iso : Prop) (L : Layout) (N : Touched) (g : Word) (c : Pid) (b : Kernel) (X : Prop)
    {α : Type} (p : KernelM α) (R : α → Prop) (s : Kernel) : Prop :=
  Prog.wp p (fun a s' => InTrap iso L N g c b s' ∧ R a) (fun s' => X ∧ Left iso L N g ∅ c b s')
    (fun _ => True) s

theorem Returns.handles {α : Type} {p : KernelM α} {R R' : α → Prop} {X : Prop}
    (h : Returns iso L N g c b p R s) (hR : ∀ a, R a → R' a) :
    Handles iso L N g c b X p R' s :=
  Prog.wp_mono h (fun a _ h => ⟨h.1, hR a h.2⟩) (fun _ h => h.elim) fun _ h => h

theorem InTrap.left (h : InTrap iso L N g c b s) (hs : Switched L s s') :
    Left iso L N g ∅ c b s' := by
  refine ⟨h.mem.switched hs, ?_⟩
  have := h.moved.trans h.caller (h.mem.switched_moved h.used hs N)
  simpa using this

/-- Code that does not come back but dispatches a process. -/
theorem InTrap.dispatch {α : Type} {p : KernelM α} {R : α → Prop} {X : Prop}
    (h : InTrap iso L N g c b s) (hX : X)
    (hp : Prog.wp p (fun _ _ => False) (Switched L s) (fun _ => True) s) :
    Handles iso L N g c b X p R s :=
  Prog.wp_mono hp (fun _ _ h => h.elim) (fun _ hs => ⟨hX, h.left hs⟩) fun _ h => h

theorem sysUserExit_mem {R : Word → Prop} {X : Prop} (h : InTrap iso L N g c b s) (hX : X)
    (code : Word) : Handles iso L N g c b X (sysUserExit L code) R s := by
  unfold Handles sysUserExit
  rw [sprint, Prog.wp_bind, Prog.wp_modify]
  have h₁ := h.sprint (.text "User exit with code:%d.\n" [code])
  refine wp_currentProc h₁.current ?_
  rw [freeProcess, setProc, Prog.wp_bind, Prog.wp_modify]
  have hused := h₁.used
  have h₂ := h₁.same (MemSame.update _ c (p := { s.procs c with status := .ZOMBIE }) rfl rfl
    (iff_of_false (by simp) hused)) rfl
  exact Prog.wp_bind.mpr (Prog.wp_mono
    (h₂.dispatch (R := fun _ => False) hX (schedule_switched L _))
    (fun _ _ h => h.2.elim) (fun _ h => h) fun _ h => h)

theorem sysUserYield_mem {R : Word → Prop} {X : Prop} (h : InTrap iso L N g c b s) (hX : X) :
    Handles iso L N g c b X (sysUserYield L) R s := by
  unfold Handles sysUserYield
  exact wp_currentProc h.current (h.dispatch hX (requeue_switched h.used))

theorem sysUserWait_mem {X : Prop} (h : InTrap iso L N g c b s) (hX : X) (pid : Word) :
    Handles iso L N g c b X (sysUserWait L pid) (· = -1) s := by
  unfold Handles sysUserWait wait
  refine wp_currentProc h.current ?_
  rw [Prog.wp_bind, Prog.wp_gets]
  dsimp only
  split_ifs
  · exact ⟨h, rfl⟩
  · exact h.dispatch hX (requeue_switched h.used)

/-- The page a trap may map. -/
def added (s : Kernel) (t : TrapInput) : Set Vpn :=
  {v | (IsSyscall t SYS_user_allocate_page ∧ v = vpn s.gUfreePage) ∨
    (t.scause = CAUSE_STORE_PAGE_FAULT ∧ v = vpn t.stval)}

/-- The page a trap may unmap. -/
def removed (t : TrapInput) : Set Vpn :=
  {v | IsSyscall t SYS_user_free_page ∧ v = vpn (t.regs .a1)}

def touched (s : Kernel) (t : TrapInput) : Touched := ⟨added s t, removed t⟩

/-- How far a trap moves `g_ufree_page`. -/
def grown (t : TrapInput) : Word := if IsSyscall t SYS_user_allocate_page then PGSIZE else 0

/-- The calls after which another process may run. -/
def Reschedules (n : Word) : Prop := n = SYS_user_exit ∨ n = SYS_user_yield ∨ n = SYS_user_wait

/-- What the handler of the call `n` returns, called in `s`; those of `exit` and
    `yield` do not return. -/
def Answer (s : Kernel) (n r : Word) : Prop :=
  if n = SYS_user_print ∨ n = SYS_user_free_page then r = 0
  else if n = SYS_user_allocate_page then r = s.gUfreePage
  else if n = SYS_user_fork then
    ∃ child, firstFree s.procs = some child ∧ r = asInt (s.procs child).pid
  else n = SYS_user_wait ∧ r = -1

theorem grown_of_ne {n : Word} (ht : t.regs .a0 = n) (hn : n ≠ SYS_user_allocate_page) :
    grown t = 0 := if_neg fun h => hn (ht.symm.trans h.2)

theorem doSyscall_mem {s₀ : Kernel} (h : InTrap iso L N 0 c b s) (hsched : SchedInv s₀ c Q)
    (hsame : SchedSame { s₀ with console := [] } s) (hprocs : s.procs = s₀.procs)
    (hheap : s.gUfreePage = s₀.gUfreePage) (hok : TrapOk iso s c t)
    (hcause : t.scause = CAUSE_USER_ECALL) (hN : added s t ⊆ N.mapped)
    (hN' : removed t ⊆ N.unmapped) :
    Handles iso L N (grown t) c b (Reschedules (t.regs .a0))
      (doSyscall L (t.regs .a0) (t.regs .a1) (t.regs .a2)) (Answer s₀ (t.regs .a0)) s := by
  unfold doSyscall
  split_ifs with h1 h2 h3 h4 h5 h6 h7
  · rw [grown_of_ne h1 (by decide)]
    refine (sysUserPrint_mem h _ _).handles fun r hr => ?_
    rwa [Answer, if_pos (Or.inl h1)]
  · rw [grown_of_ne h2 (by decide)]
    exact sysUserExit_mem h (Or.inl h2) _
  · have hcall : IsSyscall t SYS_user_allocate_page := ⟨hcause, h3⟩
    rw [grown, if_pos hcall]
    refine (sysUserAllocatePage_mem h (fun hi => hok.take hi (Or.inl hcall))
      (hN (Or.inl ⟨hcall, rfl⟩))).handles fun r hr => ?_
    rw [Answer, h3, if_neg (by decide), if_pos rfl, hr, hheap]
  · rw [grown_of_ne h4 (by decide)]
    refine (sysUserFreePage_mem h (hok.free ⟨hcause, h4⟩)
      (hN' ⟨⟨hcause, h4⟩, rfl⟩)).handles fun r hr => ?_
    rwa [Answer, if_pos (Or.inr h4)]
  · rw [grown_of_ne h5 (by decide)]
    unfold Handles sysUserFork
    rw [sprint, Prog.wp_bind, Prog.wp_modify]
    have h₁ := h.sprint (.text "User call fork.\n" [])
    refine wp_currentProc h₁.current ((doFork_mem h₁ hsched (IsTrans.trans (r := SchedSame) _ _ _
      hsame ⟨fun _ => rfl, rfl, rfl, by simp [dispatches]⟩) hprocs
      fun hi => hok.fork hi ⟨hcause, h5⟩).handles fun r hr => ?_)
    rwa [Answer, h5, if_neg (by decide), if_neg (by decide), if_pos rfl]
  · rw [grown_of_ne h6 (by decide)]
    exact sysUserYield_mem h (Or.inr (Or.inl h6))
  · rw [grown_of_ne h7 (by decide)]
    refine Prog.wp_mono (sysUserWait_mem h (Or.inr (Or.inr h7)) _) (fun r s' h => ⟨h.1, ?_⟩)
      (fun _ h => h) fun _ h => h
    rw [Answer, h7, if_neg (by decide), if_neg (by decide), if_neg (by decide)]
    exact ⟨rfl, h.2⟩
  · trivial

/-! ## Traps -/

/-- Back to the process after its trap was handled. -/
theorem Handles.resume {X : Prop} {p : KernelM Unit} {R : Unit → Prop}
    (h : Handles iso L N g c b X p R s) :
    Prog.wp (p >>= fun _ => resume L) (fun _ _ => False) (Left iso L N g ∅ c b)
      (fun _ => True) s := by
  refine Prog.wp_bind.mpr (Prog.wp_mono h (fun _ s₁ h => ?_) (fun _ h => h.2) fun _ h => h)
  exact wp_of_returning (resume_eq h.1.current) (h.1.left ⟨c, s₁, .refl s₁, h.1.used, rfl⟩)
    fun _ => trivial

theorem handleMtimerTrap_mem (h : InTrap iso L N g c b s) :
    Returns iso L N g c b handleMtimerTrap (fun _ => True) s := by
  unfold Returns handleMtimerTrap
  rw [Prog.wp_bind, Prog.wp_gets, sprint, Prog.wp_bind, Prog.wp_modify, Prog.wp_bind,
    Prog.wp_modify, writeCsr, Prog.wp_modify]
  exact ⟨h.same ⟨rfl, rfl, rfl, fun _ => rfl, fun _ => rfl, fun _ => Iff.rfl⟩ rfl, trivial⟩

/-- An assignment to fields of a process that memory does not depend on. -/
theorem Handles.setProc {α : Type} {k : Unit → KernelM α} {R : α → Prop} {X : Prop}
    (h : InTrap iso L N g c b s) (i : Pid) {f : Process → Process}
    (hspace : ∀ p, (f p).space = p.space)
    (htotal : ∀ p, (f p).totalMappedRegion = p.totalMappedRegion)
    (hstatus : ∀ p, (f p).status = p.status)
    (hk : ∀ s', InTrap iso L N g c b s' → Handles iso L N g c b X (k ()) R s') :
    Handles iso L N g c b X (setProc i f >>= k) R s := by
  unfold Handles Pke.setProc
  rw [Prog.wp_bind, Prog.wp_modify]
  exact hk _ (h.same (.update s i (hspace _) (htotal _) (by rw [hstatus])) rfl)

theorem rrsched_mem (h : InTrap iso L N g c b s) :
    Handles iso L N g c b True (rrsched L) (fun _ => True) s := by
  refine wp_currentProc h.current (Handles.setProc h c (fun _ => rfl) (fun _ => rfl)
    (fun _ => rfl) fun s₁ h₁ => ?_)
  unfold Handles
  rw [proc, Prog.wp_bind, Prog.wp_gets]
  split_ifs
  · refine Handles.setProc h₁ c (fun _ => rfl) (fun _ => rfl) (fun _ => rfl) fun s₂ h₂ => ?_
    have hq := requeue_switched (L := L) (k := (pure : Unit → KernelM Unit)) h₂.used
    rw [Prog.bind_pure] at hq
    exact h₂.dispatch trivial hq
  · exact ⟨h₁, trivial⟩

/-- The trapframe of process `i` holds `epc` and `a0`. -/
structure Saved (s : Kernel) (i : Pid) (epc a0 : Word) : Prop where
  epc : load64 s.phys.mem (tfEpc (s.procs i).trapframe) = epc
  a0 : load64 s.phys.mem (frameSlot (s.procs i).trapframe .a0) = a0

/-- A trap that may not write the trapframe of process `i` keeps it. -/
theorem Saved.kept {W : Set Pid} {i : Pid} {epc a0 : Word} (h : Saved s i epc a0)
    (hm : Moved L N g W c s s') (hi : i ∈ s.used) (hW : i ∉ W) : Saved s' i epc a0 := by
  have htf := hm.trapframe hi
  refine ⟨Eq.trans ?_ h.epc, Eq.trans ?_ h.a0⟩
  · rw [htf]
    exact hm.frame i hi hW 33 (Or.inr rfl)
  · rw [htf]
    exact hm.frame i hi hW Reg.a0.index (Or.inl (by decide))

/-- Process `c` is back from the call it made by the trap `t`, with the result `r`. -/
structure Answered (c : Pid) (t : TrapInput) (r : Word) (s : Kernel) : Prop where
  current : s.current = some c
  saved : Saved s c (t.sepc + 4) r

/-- The end of a system call: the result goes to the trapframe of the caller. -/
theorem InTrap.finish (h : InTrap iso L N g c b s)
    (hepc : load64 b.phys.mem (tfEpc (b.procs c).trapframe) = t.sepc + 4) (r : Word) :
    Prog.wp (finishSyscall L (b.procs c).trapframe r) (fun _ _ => False)
      (fun s' => Answered c t r s' ∧ Left iso L N g {c} c b s') (fun _ => True) s := by
  have hframe := store_slot_frameOnly (h.mem.aligned h.used) .a0 r
  refine wp_of_returning (finishSyscall_eq _ r h.current) ?_ fun _ => trivial
  rw [← h.trapframe]
  have hkept := h.moved.frame c h.caller (Set.notMem_empty c) 33 (Or.inr rfl)
  obtain ⟨fl, hs⟩ := h.mem.space
  have hm₁ := hframe.memInv h.used h.mem
  have hmoved := hframe.moved (W := {c}) h.used hs (Or.inl rfl) h.used N
  rw [← h.trapframe] at hkept hepc
  generalize hs₁ : ({ s with phys := { s.phys with
    mem := store64 s.phys.mem (frameSlot (s.procs c).trapframe .a0) r } } : Kernel) = s₁ at *
  have htf : (s₁.procs c).trapframe = (s.procs c).trapframe := by rw [hframe.procs]
  have hused₁ : c ∈ s₁.used := by
    rw [hframe.used]
    exact h.used
  have hsw : Switched L s₁ (afterSwitch L c s₁) := ⟨c, s₁, .refl s₁, hused₁, rfl⟩
  have hword : ∀ k, UserWord k → load64 (afterSwitch L c s₁).phys.mem
      (((afterSwitch L c s₁).procs c).trapframe + BitVec.ofNat 64 (8 * k)) =
      if k = Reg.a0.index then r
      else load64 s.phys.mem ((s.procs c).trapframe + BitVec.ofNat 64 (8 * k)) := fun k hk => by
    refine (afterSwitch_word L c s₁ hk).trans ?_
    have hlt := hk.lt
    rw [htf, ← hs₁]
    exact load_dword_store _ _ _ (j := Reg.a0.index) (by decide) (by omega)
  refine ⟨⟨rfl, ⟨?_, ?_⟩⟩, hm₁.switched hsw, ?_⟩
  · refine (hword 33 (Or.inr rfl)).trans ?_
    rw [if_neg (by decide)]
    exact hkept.trans hepc
  · refine (hword Reg.a0.index (Or.inl (by decide))).trans (if_pos rfl)
  · have h1 := (h.moved.mono (Set.empty_subset {c})).trans h.caller hmoved
    have h2 := (hm₁.switched_moved hused₁ hsw N).mono (Set.empty_subset {c})
    simpa using h1.trans h.caller h2

theorem inSyscall_epc (t : TrapInput) (c : Pid) (s : Kernel) :
    load64 (inSyscall t c s).phys.mem (tfEpc (s.procs c).trapframe) = t.sepc + 4 := by
  unfold inSyscall entered
  dsimp only
  rw [load64_store64, if_pos rfl, load64_store64, if_pos rfl]

theorem InTrap.start (hm : MemInv iso L s) (hcur : s.current = some c) (hc : c ∈ s.used) :
    InTrap iso L N 0 c s s := ⟨hm, hcur, hc, (MemSame.refl s).moved L N ∅ c⟩

/-- A handler that was entered by saving the registers of process `c`. -/
theorem Left.entered {W : Set Pid} (h : Left iso L N g W c b s') (hf : FrameOnly c s b)
    (hc : c ∈ s.used) (hm : MemInv iso L s) (hW : W ⊆ {c}) : Left iso L N g {c} c s s' := by
  obtain ⟨fl, hs⟩ := hm.space
  have := (hf.moved (W := {c}) hc hs (Or.inl rfl) hc N).trans hc (h.moved.mono hW)
  exact ⟨h.mem, by simpa using this⟩

/-- A system call of process `c` in the state `s`. -/
theorem syscall_mem (hm : MemInv iso L s) (hsched : SchedInv s c Q) (hok : TrapOk iso s c t)
    (hcause : t.scause = CAUSE_USER_ECALL) :
    Prog.wp (doSyscall L (t.regs .a0) (t.regs .a1) (t.regs .a2) >>=
        finishSyscall L (s.procs c).trapframe) (fun _ _ => False)
      (fun s' => (Reschedules (t.regs .a0) ∧ Saved s' c (t.sepc + 4) (t.regs .a0) ∨
          ∃ r, Answer s (t.regs .a0) r ∧ Answered c t r s') ∧
        Left iso L (touched s t) (grown t) {c} c s s') (fun _ => True) (inSyscall t c s) := by
  have hc : c ∈ s.used := ((hsched.live c).mp List.mem_cons_self).1
  have hframe := hm.inSyscall_frameOnly hc hsched.scratch t
  have hstart : InTrap iso L (touched s t) 0 c (inSyscall t c s) (inSyscall t c s) :=
    .start (hframe.memInv hc hm) hsched.current (by rw [hframe.used]; exact hc)
  have hepc := inSyscall_epc t c s
  refine Prog.wp_bind.mpr (Prog.wp_mono (doSyscall_mem hstart hsched (inSyscall_same t c s) rfl rfl
    (hok.frameOnly hframe hc hm) hcause (Set.Subset.refl _) (Set.Subset.refl _)) ?_ ?_ fun _ h => h)
  · rintro r s₁ ⟨h₁, hr⟩
    refine Prog.wp_mono (h₁.finish hepc r) (fun _ _ h => h) ?_ fun _ h => h
    rintro s' ⟨hans, hleft⟩
    exact ⟨Or.inr ⟨r, hr, hans⟩, hleft.entered hframe hc hm (Set.Subset.refl _)⟩
  · rintro s' ⟨hn, hleft⟩
    refine ⟨Or.inl ⟨hn, ?_⟩, hleft.entered hframe hc hm (Set.empty_subset _)⟩
    refine Saved.kept ⟨hepc, inSyscall_reg hsched.scratch (by decide)⟩ hleft.moved ?_
      (Set.notMem_empty c)
    rw [hframe.used]
    exact hc

/-- The machine when process `c` is back from a call that returned `r` in `s`. -/
def returned (L : Layout) (c : Pid) (r : Word) (s : Kernel) : Kernel :=
  afterSwitch L c { s with phys := { s.phys with
    mem := store64 s.phys.mem (frameSlot (s.procs c).trapframe .a0) r } }

theorem returned_frameOnly (ha : (s.procs c).space.Aligned) (r : Word) :
    FrameOnly c s (returned L c r s) :=
  (store_slot_frameOnly ha .a0 r).trans (afterSwitch_frameOnly ha)

theorem FrameOnly.canReturn {fl : List Ppn} (h : FrameOnly c s s') (hc : c ∈ s.used)
    (hs : Space iso L (s.view s.used s.used) s.phys fl) : CanReturn L s' c :=
  ((h.space hc hs).canEnter (by rw [h.used]; exact hc)).canReturn

/-- A system call whose handler returns. -/
theorem trap_call (hsched : SchedInv s c Q) (hcan : CanEnter L s c)
    (hcause : t.scause = CAUSE_USER_ECALL) {R : Word → Kernel → Prop} {H : Halt → Prop}
    (hp : Prog.wp (doSyscall L (t.regs .a0) (t.regs .a1) (t.regs .a2)) R (fun _ => False) H
      (inSyscall t c s))
    (hR : ∀ r s₁, R r s₁ → s₁.current = some c ∧
      (s₁.procs c).trapframe = (s.procs c).trapframe ∧
      (¬ CanReturn L (returned L c r s₁) c → H .trapEntry)) :
    Prog.wp (trap L t) (fun _ _ => False) (fun s' => ∃ r s₁, R r s₁ ∧ s' = returned L c r s₁) H
      s := by
  unfold Prog.wp
  rw [trap_eq hsched.current hcan, dispatchTrap, if_pos hcause, handleSyscall_resume hsched]
  refine Prog.wp_bind.mpr (Prog.wp_mono hp (fun r s₁ h => ?_) (fun _ h => h.elim) fun _ h => h)
  obtain ⟨hcur, htf, hret⟩ := hR r s₁ h
  refine wp_of_returning (finishSyscall_eq _ r hcur) ?_ fun hn => ?_
  · rw [← htf]
    exact ⟨r, s₁, h, rfl⟩
  · rw [← htf] at hn
    exact hret hn

/-- With memory in order, the process that a call hands the hart over to gets to user
    mode. -/
theorem MemInv.returning_rotated (hm : MemInv iso L s) (hsched : SchedInv s c Q) {q : Pid}
    {Q' : List Pid} (hrot : Rotated t s s' c Q q Q') (hover : HandedOver L q (inSyscall t c s) s') :
    (returning L q s' : Out Kernel Halt Unit) = .exit s' := by
  have hc : c ∈ s.used := ((hsched.live c).mp List.mem_cons_self).1
  have hframe := hm.inSyscall_frameOnly hc hsched.scratch t
  refine ((hframe.memInv hc hm).handedOver hover ?_).2
  have hq : q ∈ Q ++ [c] := hrot.order ▸ List.mem_cons_self
  rw [hframe.used]
  exact ((hsched.live q).mp (List.perm_append_singleton c Q |>.mem_iff.mp hq)).1

theorem trap_yield_mem (hm : MemInv iso L s) (hsched : SchedInv s c Q)
    (ht : IsSyscall t SYS_user_yield) :
    ∃ s' q Q', trap L t s = .exit s' ∧ Rotated t s s' c Q q Q' := by
  have hc : c ∈ s.used := ((hsched.live c).mp List.mem_cons_self).1
  obtain ⟨s', q, Q', htrap, hrot, hover⟩ := trap_yield hsched (hm.canEnter hc) ht.1 ht.2
  exact ⟨s', q, Q', htrap.trans (hm.returning_rotated hsched hrot hover), hrot⟩

theorem trap_wait_mem (hm : MemInv iso L s) (hsched : SchedInv s c Q)
    (ht : IsSyscall t SYS_user_wait)
    (hflag : waitFlag s.procs c ((t.regs .a1).setWidth 32) (List.finRange 32) (-1) ≠ -1) :
    ∃ s' q Q', trap L t s = .exit s' ∧ Rotated t s s' c Q q Q' := by
  have hc : c ∈ s.used := ((hsched.live c).mp List.mem_cons_self).1
  obtain ⟨s', q, Q', htrap, hrot, hover⟩ := trap_wait hsched (hm.canEnter hc) ht.1 ht.2 hflag
  exact ⟨s', q, Q', htrap.trans (hm.returning_rotated hsched hrot hover), hrot⟩

/-- **A trap of process `c`.** -/
theorem trap_mem (hm : MemInv iso L s) (hsched : SchedInv s c Q) (hok : TrapOk iso s c t) :
    Prog.wp (trap L t) (fun _ _ => False)
      (fun s' => (t.scause = CAUSE_USER_ECALL →
          Reschedules (t.regs .a0) ∧ Saved s' c (t.sepc + 4) (t.regs .a0) ∨
            ∃ r, Answer s (t.regs .a0) r ∧ Answered c t r s') ∧
        Left iso L (touched s t) (grown t) {c} c s s') (fun _ => True) s := by
  have hc : c ∈ s.used := ((hsched.live c).mp List.mem_cons_self).1
  unfold Prog.wp
  by_cases hcan : CanEnter L s c
  · rw [trap_eq hsched.current hcan]
    have hframe := hm.entered_frameOnly hc hsched.scratch t
    have hstart : InTrap iso L (touched s t) 0 c (entered t c s) (entered t c s) :=
      .start (hframe.memInv hc hm) hsched.current (by rw [hframe.used]; exact hc)
    have hgrown : t.scause ≠ CAUSE_USER_ECALL → grown t = 0 := fun h => if_neg fun hs => h hs.1
    unfold dispatchTrap
    split_ifs with h1 h2 h3
    · rw [handleSyscall_resume hsched]
      exact Prog.wp_mono (syscall_mem hm hsched hok h1) (fun _ _ h => h)
        (fun _ h => ⟨fun _ => h.1, h.2⟩) fun _ h => h
    all_goals rw [hgrown h1]
    · refine Prog.wp_mono (Handles.resume (X := True) (R := fun _ => True)
        (Prog.wp_bind.mpr (Prog.wp_mono (handleMtimerTrap_mem hstart)
          (fun _ _ h => rrsched_mem h.1) (fun _ h => h.elim) fun _ h => h)))
        (fun _ _ h => h) (fun s' h => ?_) fun _ h => h
      exact ⟨fun h' => absurd h' h1, h.entered hframe hc hm (Set.empty_subset _)⟩
    · have hfault := (handleUserPageFault_mem hstart t.scause ((entered t c s).csr .sepc)
        ((entered t c s).csr .stval)
        (fun hi hst => (hok.frameOnly hframe hc hm).take hi (Or.inr hst))
        fun hst => Or.inr ⟨hst, ?_⟩).handles (X := True) fun _ _ => (trivial : True)
      · refine Prog.wp_mono (Handles.resume (p := do
          let sepc ← readCsr .sepc
          let stval ← readCsr .stval
          handleUserPageFault t.scause sepc stval) (by
            unfold Handles
            rw [readCsr, Prog.wp_bind, Prog.wp_gets, readCsr, Prog.wp_bind, Prog.wp_gets]
            exact hfault)) (fun _ _ h => h) (fun s' h => ?_) fun _ h => h
        exact ⟨fun h' => absurd h' h1, h.entered hframe hc hm (Set.empty_subset _)⟩
      · rw [show (entered t c s).csr = (enterTrap t s).csr from rfl,
          enterTrap_csr t s (by decide) (by decide)]
        simp
    · trivial
  · rw [trap_of_not_canEnter hsched.current hcan]
    trivial

/-! ## Stores -/

/-- What a store of user code changes: one page it may write. -/
theorem userStore_spec {va : Word} {b : BitVec 8} (hs : userStore va b s = some s')
    (hcur : s.current = some c) :
    ∃ w, translate s.phys.mem (ppn (s.procs c).pagetable) (vpn va) = some w ∧
      w &&& PTE_U ≠ 0 ∧ w &&& PTE_W ≠ 0 ∧
      s' = { s with phys := { s.phys with mem := s'.phys.mem } } ∧
      ∀ q, q ≠ ptePpn w → s'.phys.mem q = s.phys.mem q := by
  unfold userStore at hs
  obtain ⟨i, hi, hs⟩ := Option.bind_eq_some_iff.mp hs
  obtain rfl : i = c := Option.some.inj (hi.symm.trans hcur)
  obtain ⟨pa, hpa, hs⟩ := Option.bind_eq_some_iff.mp hs
  obtain rfl := Option.some.inj hs
  unfold userTranslate at hpa
  split_ifs at hpa with hcan
  obtain ⟨w, hw, hpa⟩ := Option.bind_eq_some_iff.mp hpa
  split_ifs at hpa with hperm
  obtain rfl := Option.some.inj hpa
  have hflag : ∀ f : Word, (PTE_U ||| PTE_W) &&& f = f → w &&& f = f := fun f hf => by
    rw [← hf, ← BitVec.and_assoc, hperm]
  have hoff := offset_lt va
  refine ⟨w, hw, ?_, ?_, rfl, fun q hq => store8_of_ne ?_⟩
  · rw [hflag PTE_U (by decide)]
    decide
  · rw [hflag PTE_W (by decide)]
    decide
  · rwa [PTE2PA_eq, ppn_addr_add _ hoff]

theorem MemInv.store (hm : MemInv iso L s) (hc : c ∈ s.used) (hcur : s.current = some c)
    {va : Word} {x : BitVec 8} (hs : userStore va x s = some s') : Left iso L N 0 {c} c s s' := by
  obtain ⟨⟨fl, hsp⟩, hheap⟩ := hm
  obtain ⟨w, hw, hU, -, heq, hmem⟩ := userStore_spec hs hcur
  have hspare := hsp.user c hc (vpn va) w hw hU
  have hleaf : ∀ j ∈ s.used, ∀ v, translate s'.phys.mem (s.procs j).space.root v =
      translate s.phys.mem (s.procs j).space.root v := fun j hj v =>
    leaf_write (V := s.view s.used s.used) hmem hspare.table hj v
  have hspace := hsp.writeSpare hspare hmem
  generalize s'.phys.mem = m at heq hmem hleaf hspace
  subst heq
  refine ⟨⟨⟨fl, hspace⟩, hheap⟩, Moved.ofPhys hsp (fun j hj k => ?_) (fun j hj _ => hleaf j hj)
    (fun v w' hw' => Or.inl ((hleaf c hc v).symm.trans hw'))
    (fun v w' hw' => Or.inl ((hleaf c hc v).trans hw'))
    (fun p hp => hmem p (hsp.image_ne_spare hp hspare)) (by simp)⟩
  exact hmem _ (hspare.own j hj k).symm

/-! ## Steps -/

/-- What a step from `s` has to meet for memory to stay in order. -/
def StepOk (iso : Prop) (s : Kernel) : Action → Prop
  | .trap t => ∀ c, s.current = some c → TrapOk iso s c t
  | .store _ _ => True

theorem StepOk.of_not_free (ht : ¬ IsSyscall t SYS_user_free_page) : StepOk False s (.trap t) :=
  fun _ _ => .of_not_free ht

theorem StepOk.of_releasable (hcur : s.current = some c) (hr : Releasable s c (t.regs .a1)) :
    StepOk False s (.trap t) := fun i hi => by
  obtain rfl : c = i := Option.some.inj (hcur.symm.trans hi)
  exact ⟨fun _ => hr, fun hf => hf.elim, fun hf => hf.elim⟩

/-- The pages a step may map. -/
def Action.added (s : Kernel) : Action → Set Vpn
  | .trap t => Pke.added s t
  | .store _ _ => ∅

/-- The pages a step may unmap. -/
def Action.removed : Action → Set Vpn
  | .trap t => Pke.removed t
  | .store _ _ => ∅

/-- How far a step moves `g_ufree_page`. -/
def Action.grown : Action → Word
  | .trap t => Pke.grown t
  | .store _ _ => 0

/-- **One step of the running system.** -/
theorem Step.left {a : Action} (hm : MemInv iso L s) (hsched : SchedInv s c Q)
    (hok : StepOk iso s a) (ha : Step L s a s') :
    Left iso L ⟨a.added s, a.removed⟩ a.grown {c} c s s' := by
  have hc : c ∈ s.used := ((hsched.live c).mp List.mem_cons_self).1
  cases ha with
  | trap h => exact (Prog.wp_exit (trap_mem hm hsched (hok c hsched.current)) h).2
  | store h => exact hm.store hc hsched.current h

end Pke
