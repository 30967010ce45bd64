import Pke.Runs.Statics

/-!
# Process identities over whole runs

`alloc_process` takes the first FREE slot, `do_fork` makes it READY and sets its
parent, and nothing makes a slot FREE again. So after `n` forks the slots in use
are `0, …, n`, every one but slot 0 has a parent with a smaller number
(`Lineage`), and the next fork creates slot `n + 1` and returns that number.
-/

namespace Pke

open Lib

variable {L : Layout} {P : Placement L} {h : Host} {t : TrapInput} {s s' : Kernel} {c q : Pid}
  {Q Q' : List Pid}

/-! ## The first free slot -/

theorem firstFree_eq_some {procs : Pid → Process} {i : Pid} (hf : firstFree procs = some i) :
    (procs i).status = .FREE ∧ ∀ j < i, (procs j).status ≠ .FREE := by
  obtain ⟨hi, k, hk, hki, hbefore⟩ := List.find?_eq_some_iff_getElem.mp hf
  rw [List.getElem_finRange] at hki
  refine ⟨by simpa using hi, fun j hj => ?_⟩
  have hjk : j.val < k := by
    rw [← hki] at hj
    exact hj
  simpa using hbefore j.val hjk

theorem firstFree_eq_none {procs : Pid → Process} :
    firstFree procs = none ↔ ∀ i, (procs i).status ≠ .FREE := by
  simp [firstFree]

/-! ## A call of `fork` -/

theorem asInt_slot (i : Pid) : asInt (BitVec.ofNat 64 i) = BitVec.ofNat 64 i := by
  revert i
  decide

theorem sysUserFork_inFork (hs : SchedInv s c Q) (t : TrapInput) :
    sysUserFork L (inSyscall t c s) = doFork L c (inFork t c s) := by
  have hprint : sprint (.text "User call fork.\n" []) (inSyscall t c s) =
      .ret () (inFork t c s) := rfl
  rw [sysUserFork, Prog.bind_of_ret hprint,
    Prog.bind_of_ret (currentProc_eq (s := inFork t c s) hs.current)]

/-- A `fork` that comes back is `do_fork` and its result. -/
theorem trap_fork_run (hs : SchedInv s c Q) (ht : IsFork t) (hstep : trap L t s = .exit s') :
    ∃ r s₁, doFork L c (inFork t c s) = .ret r s₁ ∧ s' = returned L c r s₁ := by
  have hc : CanEnter L s c := by
    by_contra hc
    rw [trap_of_not_canEnter hs.current hc] at hstep
    cases hstep
  obtain ⟨hcall, hfork⟩ := ht
  rw [trap_eq hs.current hc, dispatchTrap, if_pos hcall, handleSyscall_resume hs, doSyscall,
    if_neg (by rw [hfork]; decide), if_neg (by rw [hfork]; decide), if_neg (by rw [hfork]; decide),
    if_neg (by rw [hfork]; decide), if_pos hfork] at hstep
  have hwp := doFork_sched (L := L) hs (inFork_same t c s) rfl
  rcases Prog.bind_eq_exit.mp hstep with hexit | ⟨r, s₁, hret, hfin⟩
  · rw [sysUserFork_inFork hs] at hexit
    exact (Prog.wp_exit hwp hexit).elim
  rw [sysUserFork_inFork hs] at hret
  obtain ⟨child, hf, -⟩ := Prog.wp_ret hwp hret
  have hcc : c ≠ child := by
    rintro rfl
    have := hs.ready c List.mem_cons_self
    rw [firstFree_status hf.free] at this
    cases this
  rw [finishSyscall_eq _ r (hf.current.trans hs.current), ← hf.frame c hcc] at hfin
  obtain ⟨rfl, -⟩ := returning_exit hfin
  exact ⟨r, s₁, hret, rfl⟩

/-- What a `fork` that comes back has done. -/
theorem trap_fork (hs : SchedInv s c Q) (ht : IsFork t) (hstep : trap L t s = .exit s') :
    ∃ child, firstFree s.procs = some child ∧ s'.current = some c ∧
      s'.regs .a0 = BitVec.ofNat 64 child ∧
      ((s'.procs child).status = .READY ∧ (s'.procs child).parent = some c) ∧
      ∀ i, i ≠ child → SameRole s s' i := by
  obtain ⟨r, s₁, hret, rfl⟩ := trap_fork_run hs ht hstep
  obtain ⟨child, hf, hr⟩ := Prog.wp_ret (doFork_sched (L := L) hs (inFork_same t c s) rfl) hret
  refine ⟨child, hf.free, rfl, ?_, hf.born, hf.role⟩
  rw [returned, afterSwitch_reg]
  dsimp only
  rw [load64_store64, if_pos rfl, hr, hs.pids child, asInt_slot]

/-- With every slot taken a `fork` panics in `alloc_process`. -/
theorem trap_fork_noSlot (hs : SchedInv s c Q) (hc : CanEnter L s c) (ht : IsFork t)
    (hnone : firstFree s.procs = none) :
    trap L t s = .halt (.panic "cannot find any free process structure.\n" []) := by
  obtain ⟨hcall, hfork⟩ := ht
  rw [trap_eq hs.current hc, dispatchTrap, if_pos hcall, handleSyscall_resume hs, doSyscall,
    if_neg (by rw [hfork]; decide), if_neg (by rw [hfork]; decide), if_neg (by rw [hfork]; decide),
    if_neg (by rw [hfork]; decide), if_pos hfork]
  obtain ⟨s₂, -, hprocs, hrun⟩ :=
    sysUserFork_eq (L := L) ((inSyscall_same t c s).current.trans hs.current)
  refine Prog.bind_of_halt (hrun.trans ?_) _
  rw [doFork, proc, Prog.bind_of_ret (Prog.gets_apply _ _), sprint,
    Prog.bind_of_ret (Prog.modify_apply _ _)]
  refine Prog.bind_of_halt ?_ _
  rw [allocProcess, Prog.bind_of_ret (Prog.gets_apply _ _)]
  dsimp only
  rw [hprocs, show (inSyscall t c s).procs = s.procs from rfl, hnone]
  rfl

/-! ## Slots and parents -/

/-- After `n` forks the slots in use are `0, …, n`, and every one but slot 0 has a
    parent with a smaller number. -/
structure Lineage (s : Kernel) (n : ℕ) : Prop where
  bound : n < 32
  used : ∀ i, (s.procs i).status ≠ .FREE ↔ i.val ≤ n
  root : (s.procs 0).parent = none
  parent : ∀ i, i ≠ 0 → i.val ≤ n → ∃ p < i, (s.procs i).parent = some p

/-- The slots in use stay in use and keep their parent. -/
def KeepsUsed (s s' : Kernel) : Prop :=
  ∀ i, (s.procs i).status ≠ .FREE →
    (s'.procs i).status ≠ .FREE ∧ (s'.procs i).parent = (s.procs i).parent

theorem KeepsUsed.trans {s₁ s₂ s₃ : Kernel} (h₁ : KeepsUsed s₁ s₂) (h₂ : KeepsUsed s₂ s₃) :
    KeepsUsed s₁ s₃ := fun i hi =>
  ⟨(h₂ i (h₁ i hi).1).1, (h₂ i (h₁ i hi).1).2.trans (h₁ i hi).2⟩

/-- The slot of the next child. -/
theorem Lineage.firstFree {n : ℕ} (hl : Lineage s n) {child : Pid}
    (hf : firstFree s.procs = some child) : child.val = n + 1 := by
  obtain ⟨hfree, hbefore⟩ := firstFree_eq_some hf
  have hchild : ¬ child.val ≤ n := fun hle => (hl.used child).mpr hle hfree
  by_contra hne
  have hlt : n + 1 < child.val := by omega
  exact hbefore ⟨n + 1, by omega⟩ (Fin.lt_def.mpr hlt)
    (not_not.mp fun hused => absurd ((hl.used _).mp hused) (by simp))

theorem Lineage.firstFree_eq_none {n : ℕ} (hl : Lineage s n) :
    Pke.firstFree s.procs = none ↔ n = 31 := by
  rw [Pke.firstFree_eq_none]
  constructor
  · intro hall
    have hlast : 31 ≤ n := (hl.used 31).mp (hall 31)
    have := hl.bound
    omega
  · rintro rfl i
    exact (hl.used i).mpr (by omega)

/-- Steps that give every slot its role, but for a slot in use that exits. -/
theorem Lineage.of_keeps {n : ℕ} (hl : Lineage s n) (hk : KeepsUsed s s')
    (hfree : ∀ i, (s.procs i).status = .FREE → (s'.procs i).status = .FREE) : Lineage s' n where
  bound := hl.bound
  used i := by
    rw [← hl.used i]
    exact ⟨fun hu hf => hu (hfree i hf), fun hu => (hk i hu).1⟩
  root := (hk 0 ((hl.used 0).mpr (Nat.zero_le n))).2.trans hl.root
  parent i hi hle := by
    rw [(hk i ((hl.used i).mpr hle)).2]
    exact hl.parent i hi hle

theorem Lineage.imageOnly {n : ℕ} (hl : Lineage s n) (ho : ImageOnly L s s') : Lineage s' n := by
  rw [ho.rest]
  exact ⟨hl.bound, hl.used, hl.root, hl.parent⟩

/-- A new slot `n + 1` with a parent in use. -/
theorem Lineage.fork {n : ℕ} (hl : Lineage s n) {child : Pid} (hchild : child.val = n + 1)
    (hc : (s.procs c).status ≠ .FREE)
    (hborn : (s'.procs child).status = .READY ∧ (s'.procs child).parent = some c)
    (hrole : ∀ i, i ≠ child → SameRole s s' i) : Lineage s' (n + 1) ∧ KeepsUsed s s' := by
  have hlt := child.isLt
  have hkeep : KeepsUsed s s' := by
    intro i hi
    have hne : i ≠ child := by
      rintro rfl
      have := (hl.used i).mp hi
      omega
    rw [(hrole i hne).1]
    exact ⟨hi, (hrole i hne).2⟩
  refine ⟨⟨by omega, fun i => ?_, ?_, fun i hi hle => ?_⟩, hkeep⟩
  · by_cases hi : i = child
    · subst hi
      rw [hborn.1]
      simp [hchild]
    · rw [(hrole i hi).1, hl.used i]
      have hv : i.val ≠ child.val := fun e => hi (Fin.ext e)
      omega
  · exact (hkeep 0 ((hl.used 0).mpr (Nat.zero_le n))).2.trans hl.root
  · by_cases hic : i = child
    · subst hic
      have := (hl.used c).mp hc
      exact ⟨c, Fin.lt_def.mpr (by omega), hborn.2⟩
    · have hv : i.val ≠ child.val := fun e => hic (Fin.ext e)
      rw [(hrole i hic).2]
      exact hl.parent i hi (by omega)

/-! ## One step -/

instance (t : TrapInput) : Decidable (IsFork t) := inferInstanceAs (Decidable (_ ∧ _))

/-- Calls of `fork` count one, other steps nothing. -/
def Action.fork : Action → ℕ
  | .trap t => if IsFork t then 1 else 0
  | .store _ _ => 0

/-- The number of completed forks of a run. -/
def forks (tr : List (Action × Kernel)) : ℕ := (tr.map fun x => x.1.fork).sum

theorem forks_cons (a : Action) (s : Kernel) (tr : List (Action × Kernel)) :
    forks ((a, s) :: tr) = a.fork + forks tr := rfl

/-- **One step** adds a slot exactly if it is a `fork`. -/
theorem Lineage.step {n : ℕ} {a : Action} (hl : Lineage s n) (hs : SchedInv s c Q)
    (ha : Step L s a s') : Lineage s' (n + a.fork) ∧ KeepsUsed s s' := by
  have hsame : ∀ {s'}, (∀ i, SameRole s s' i) → Lineage s' n ∧ KeepsUsed s s' := by
    intro s' hrole
    have hkeep : KeepsUsed s s' := fun i hi => ⟨(hrole i).1 ▸ hi, (hrole i).2⟩
    exact ⟨hl.of_keeps hkeep fun i hi => (hrole i).1.trans hi, hkeep⟩
  have hc : (s.procs c).status ≠ .FREE := by
    rw [hs.ready c List.mem_cons_self]
    decide
  cases ha with
  | store hst =>
    obtain ⟨mem, rfl⟩ := userStore_eq hst
    exact hsame fun _ => ⟨rfl, rfl⟩
  | @trap _ t hst =>
    by_cases ht : IsFork t
    · obtain ⟨child, hfree, -, -, hborn, hrole⟩ := trap_fork hs ht hst
      rw [Action.fork, if_pos ht]
      exact hl.fork (hl.firstFree hfree) hc hborn hrole
    · rw [Action.fork, if_neg ht]
      obtain ⟨q, Q', -, hstep⟩ := Prog.wp_exit (trap_sched hs) hst
      cases hstep with
      | stay hrole _ _ => exact hsame hrole
      | fork child hcall _ _ _ _ _ => exact absurd hcall ht
      | rotate q Q' _ hrole _ => exact hsame hrole
      | exit q Q' _ hzombie hparent hrole _ =>
        have hkeep : KeepsUsed s s' := by
          intro i hi
          by_cases hic : i = c
          · subst hic
            rw [hzombie]
            exact ⟨by decide, hparent⟩
          · rw [(hrole i hic).1]
            exact ⟨hi, (hrole i hic).2⟩
        refine ⟨hl.of_keeps hkeep fun i hi => ?_, hkeep⟩
        have hic : i ≠ c := fun e => hc (e ▸ hi)
        exact (hrole i hic).1.trans hi

/-! ## Runs -/

theorem ImageOnly.keepsUsed (ho : ImageOnly L s s') : KeepsUsed s s' := fun i hi => by
  rw [ho.procs]
  exact ⟨hi, rfl⟩

theorem ImageRun.lineage {tr : List (Action × Kernel)} (hr : ImageRun L s tr s') :
    ∀ {c Q n}, SchedInv s c Q → Lineage s n →
      (∃ q Q', SchedInv s' q Q') ∧ Lineage s' (n + forks tr) ∧ KeepsUsed s s' := by
  induction hr with
  | nil s => exact fun hs hl => ⟨⟨_, _, hs⟩, hl, fun _ hi => ⟨hi, rfl⟩⟩
  | @cons s s₁ s₂ s' a tr ha ho hr ih =>
    intro c Q n hs hl
    obtain ⟨q₁, Q₁, hs₁, -⟩ := hs.step ha
    obtain ⟨hl₁, hk₁⟩ := hl.step hs ha
    obtain ⟨hs', hl', hk'⟩ := ih (ho.sched hs₁) (hl₁.imageOnly ho)
    rw [forks_cons, ← Nat.add_assoc]
    exact ⟨hs', hl', (hk₁.trans ho.keepsUsed).trans hk'⟩

theorem Booted.lineage (hb : Booted s 0) : Lineage s 0 where
  bound := by omega
  used i := by
    by_cases hi : i = 0
    · subst hi
      rw [hb.sched.ready 0 List.mem_cons_self]
      simp
    · rw [hb.free i hi]
      have hv : i.val ≠ 0 := fun e => hi (Fin.ext e)
      simp [hv]
  root := hb.parent 0
  parent i hi hle := absurd (Fin.ext (Nat.le_zero.mp hle)) hi

theorem Placement.Boots.lineage (hb : P.Boots h s) (hload : h.LoadsOk Set.univ) :
    SchedInv s 0 [] ∧ Lineage s 0 ∧ InOrder False L s := by
  obtain ⟨⟨s₀, s₁, hboot, ho⟩, hsched, hord⟩ := hb.static False hload
  have hbooted := Prog.wp_exit (sStart_sched L h s₀) hboot
  exact ⟨hsched, hbooted.lineage.imageOnly ho, hord⟩

/-- **Process identities.** When the segments of the application lie at addresses of
    pages, in every run from boot in which processes free only pages of their own:
    `procs[i].pid` is `i`; a slot in use stays in use and keeps its parent; the slots in
    use are 0 up to the number of forks so far; a fork returns the number of forks up to
    and with it, which is the slot it has created, with the caller as parent for good and
    a larger number than the caller; slot 0 has no parent. A fork runs out of slots
    exactly if it is the 32nd, and nothing else does. -/
theorem process_identities {tr : List (Action × Kernel)} (hload : h.LoadsOk Set.univ)
    (hboot : P.Boots h s) (hr : StaticRun P (StepOk False) s tr s') :
    (∀ i, (s'.procs i).pid = BitVec.ofNat 64 i) ∧
    (∀ tr₁ tr₂, tr = tr₁ ++ tr₂ → ∃ s₁, StaticRun P (StepOk False) s tr₁ s₁ ∧
      StaticRun P (StepOk False) s₁ tr₂ s' ∧ ∀ i, (s₁.procs i).status ≠ .FREE →
        (s'.procs i).status ≠ .FREE ∧ (s'.procs i).parent = (s₁.procs i).parent) ∧
    (∀ i, (s'.procs i).status ≠ .FREE ↔ i.val ≤ forks tr) ∧
    (∀ tr₁ t s₂ tr₂, tr = tr₁ ++ (.trap t, s₂) :: tr₂ → IsFork t → ∃ s₁ p child,
      StaticRun P (StepOk False) s tr₁ s₁ ∧ s₁.current = some p ∧ s₂.current = some p ∧
      child.val = forks tr₁ + 1 ∧ s₂.regs .a0 = BitVec.ofNat 64 (forks tr₁ + 1) ∧
      (s₁.procs child).status = .FREE ∧ (s'.procs child).parent = some p ∧ p < child) ∧
    (s'.procs 0).parent = none ∧
    (∀ i, i ≠ 0 → (s'.procs i).status ≠ .FREE → ∃ p < i, (s'.procs i).parent = some p) ∧
    (∀ t args, trap L t s' = .halt (.panic "cannot find any free process structure.\n" args) ↔
      args = [] ∧ IsFork t ∧ (∃ c, s'.current = some c ∧ CanEnter L s' c) ∧
        forks tr + 1 = 32) ∧
    ∀ s₀ args, sStart L h (coldStart h s₀) ≠
      .halt (.panic "cannot find any free process structure.\n" args) := by
  obtain ⟨hsched, hlin, hord⟩ := hboot.lineage hload
  obtain ⟨⟨q, Q', hs'⟩, hl', -⟩ := (hr.imageRun hord).1.lineage hsched hlin
  rw [Nat.zero_add] at hl'
  refine ⟨hs'.pids, fun tr₁ tr₂ htr => ?_, hl'.used, fun tr₁ t s₂ tr₂ htr ht => ?_, hl'.root,
    fun i hi hu => hl'.parent i hi ((hl'.used i).mp hu), fun t args => ⟨fun hhalt => ?_, ?_⟩,
    fun s₀ args hhalt => ?_⟩
  · subst htr
    obtain ⟨s₁, hr₁, hr₂⟩ := hr.split
    obtain ⟨hrun₁, hord₁⟩ := hr₁.imageRun hord
    obtain ⟨⟨q₁, Q₁, hs₁⟩, hl₁, -⟩ := hrun₁.lineage hsched hlin
    exact ⟨s₁, hr₁, hr₂, ((hr₂.imageRun hord₁).1.lineage hs₁ hl₁).2.2⟩
  · subst htr
    obtain ⟨s₁, hr₁, hr₂⟩ := hr.split
    obtain ⟨hrun₁, hord₁⟩ := hr₁.imageRun hord
    obtain ⟨⟨p, Q₁, hs₁⟩, hl₁, -⟩ := hrun₁.lineage hsched hlin
    rw [Nat.zero_add] at hl₁
    cases hr₂ with
    | cons hok ha hr₂ =>
      obtain ⟨hone, hord₂⟩ := (StaticRun.cons hok ha (.nil s₂)).imageRun hord₁
      obtain ⟨⟨q₂, Q₂, hs₂⟩, hl₂, -⟩ := hone.lineage hs₁ hl₁
      cases ha with
      | trap hst _ =>
        obtain ⟨child, hfree, hcur, ha0, hborn, -⟩ := trap_fork hs₁ ht hst
        have hchild := hl₁.firstFree hfree
        have hp : (s₁.procs p).status ≠ .FREE := by
          rw [hs₁.ready p List.mem_cons_self]
          decide
        have hkeep := ((hr₂.imageRun hord₂).1.lineage hs₂ hl₂).2.2 child
          (hborn.1.trans_ne (by decide))
        have hle := (hl₁.used p).mp hp
        refine ⟨s₁, p, child, hr₁, hs₁.current, hcur, hchild, ?_, (firstFree_eq_some hfree).1,
          hkeep.2.trans hborn.2, Fin.lt_def.mpr (by omega)⟩
        exact ha0.trans (by rw [hchild])
  · have hc : CanEnter L s' q := by
      by_contra hc
      rw [trap_of_not_canEnter hs'.current hc] at hhalt
      cases hhalt
    obtain ⟨ht, hnone⟩ := (Prog.wp_halted (trap_sched hs') hhalt).2 rfl
    have hpanic := trap_fork_noSlot hs' hc ht hnone
    rw [hhalt] at hpanic
    cases hpanic
    exact ⟨rfl, ht, ⟨q, hs'.current, hc⟩, by rw [hl'.firstFree_eq_none.mp hnone]⟩
  · rintro ⟨rfl, ht, ⟨c, hcur, hc⟩, hcount⟩
    obtain rfl : q = c := Option.some.inj (hs'.current.symm.trans hcur)
    exact trap_fork_noSlot hs' hc ht (hl'.firstFree_eq_none.mpr (by omega))
  · exact Prog.wp_halted (sStart_sched L h s₀) hhalt (Or.inr rfl)

/-- The first process forks: slot 1 is in use. -/
theorem process_identities_sample : ∃ s s', samplePlacement.Boots (sampleHost 5 8) s ∧
    StaticRun samplePlacement (StepOk False) s [(.trap (call SYS_user_fork 0), s')] s' ∧
      (s'.procs 1).status ≠ .FREE := by
  obtain ⟨s, s', hboot, hrun⟩ := sampleForkRun
  obtain ⟨-, -, hused, -⟩ := process_identities sampleHost_loads hboot hrun
  have hforks : forks [(Action.trap (call SYS_user_fork 0), s')] = 1 := by
    rw [forks_cons]
    rfl
  exact ⟨s, s', hboot, hrun, (hused 1).mpr (by rw [hforks]; decide)⟩

end Pke
