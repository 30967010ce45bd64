import Pke.Lib.RoundRobin
import Pke.Runs.Identities
import Pke.Runs.Wait

/-!
# The scheduler of the kernel is a round-robin scheduler

A `Roster` is the scheduler on its own: a round-robin scheduler of the slots,
the parents of the processes, and how many of them were created. It knows
nothing of memory. A step of the machine is for it one of six calls
(`SchedCall`). `Follows s v` says that the kernel's process table and ready
queue in the state `s` are those of `v`. Every step of the machine is the step
of the roster for its call (`Follows.step`), so the roster runs along with
every run of the kernel (`Follows.run`).
-/

namespace Pke

open Lib

/-! ## The abstract scheduler -/

/-- What a step of the machine is for the scheduler. -/
inductive SchedCall where
  | tick | yield | wait | fork | exit | other
  deriving DecidableEq

/-- The system calls that concern the scheduler. -/
def syscallKind (a0 : Word) : SchedCall :=
  if a0 = SYS_user_exit then .exit
  else if a0 = SYS_user_fork then .fork
  else if a0 = SYS_user_yield then .yield
  else if a0 = SYS_user_wait then .wait
  else .other

def TrapInput.kind (t : TrapInput) : SchedCall :=
  if t.scause = CAUSE_USER_ECALL then syscallKind (t.regs .a0)
  else if t.scause = CAUSE_MTIMER_S_TRAP then .tick
  else .other

def Action.kind : Action → SchedCall
  | .trap t => t.kind
  | .store _ _ => .other

/-- The processes in the order in which they run, with the ticks of the slice
    that each has used; their parents; and the last slot in use. -/
structure Roster where
  rr : RoundRobin Pid TIME_SLICE_LEN.toNat
  parent : Pid → Option Pid
  made : ℕ

namespace Roster

/-- One process runs, and none was forked. -/
def boot : Roster where
  rr := ⟨⟨0, Nat.succ_pos 31⟩, [], List.nodup_singleton _, fun _ => ⟨0, Nat.succ_pos _⟩⟩
  parent _ := none
  made := 0

/-- What a call is for the round-robin scheduler. A process that waits goes to the
    end of the queue if it has a child, whichever child it asks for. -/
def event (v : Roster) : SchedCall → Option (RoundRobin.Event Pid)
  | .tick => some .tick
  | .yield => some .yield
  | .wait => some (if ∃ i, v.parent i = some v.rr.running then .yield else .keep)
  | .fork => if h : v.made + 1 < 32 then some (.spawn ⟨v.made + 1, h⟩) else none
  | .exit => some .leave
  | .other => some .keep

/-- The roster with the next state of the round-robin scheduler. -/
def next (v : Roster) (rr : RoundRobin Pid TIME_SLICE_LEN.toNat) : RoundRobin.Event Pid → Roster
  | .spawn i => ⟨rr, Function.update v.parent i (some v.rr.running), v.made + 1⟩
  | .tick | .yield | .leave | .keep => { v with rr := rr }

def step (v : Roster) (c : SchedCall) : Option Roster := do
  let e ← v.event c
  let rr ← v.rr.step e
  return v.next rr e

def run (v : Roster) (cs : List SchedCall) : Option Roster := cs.foldlM step v

/-- The status of a slot: a process that has left its place is a zombie. -/
def status (v : Roster) (i : Pid) : ProcStatus :=
  if i ∈ v.rr.tasks then .READY else if i.val ≤ v.made then .ZOMBIE else .FREE

/-- The state of the kernel shows the roster. -/
structure Shows (v : Roster) (s : Kernel) : Prop where
  current : s.current = some v.rr.running
  queue : ReadyQueue s v.rr.queue
  status : ∀ i, (s.procs i).status = v.status i
  parent : ∀ i, (s.procs i).parent = v.parent i
  ticks : ∀ i, (s.procs i).tickCount = (v.rr.used i).val

variable {v v' : Roster} {c : SchedCall} {e : RoundRobin.Event Pid}
  {rr : RoundRobin Pid TIME_SLICE_LEN.toNat}

theorem step_of_event (he : v.event c = some e) (hrr : v.rr.step e = some rr) :
    v.step c = some (v.next rr e) := by
  rw [step, he, Option.bind_eq_bind, Option.bind_some, hrr]
  rfl

theorem event_of_step (h : v.step c = some v') :
    ∃ e rr, v.event c = some e ∧ v.rr.step e = some rr ∧ v' = v.next rr e := by
  obtain ⟨e, he, h⟩ := Option.bind_eq_some_iff.mp h
  obtain ⟨rr, hrr, h⟩ := Option.bind_eq_some_iff.mp h
  exact ⟨e, rr, he, hrr, (Option.some.inj h).symm⟩

end Roster

/-! ## Following the roster -/

variable {L : Layout} {h : Host} {t : TrapInput} {s s₁ s₂ s' : Kernel} {c q : Pid}
  {Q Q' : List Pid} {v v' : Roster}

/-- The scheduling data of `s` are those of the roster. -/
structure Follows (s : Kernel) (v : Roster) : Prop where
  inv : SchedInv s v.rr.running v.rr.queue
  free : ∀ i, (s.procs i).status = .FREE ↔ v.made < i.val
  parent : ∀ i, (s.procs i).parent = v.parent i
  ticks : ∀ i, (s.procs i).tickCount = (v.rr.used i).val

theorem Follows.shows (hf : Follows s v) : v.Shows s where
  current := hf.inv.current
  queue := hf.inv.queue.chain
  status i := by
    unfold Roster.status
    have hlive := hf.inv.live i
    split_ifs with hi hmade
    · exact hf.inv.ready i hi
    · have hdead : ¬ ((s.procs i).status ≠ .FREE ∧ (s.procs i).status ≠ .ZOMBIE) := mt hlive.mpr hi
      have hfree : (s.procs i).status ≠ .FREE := fun he => absurd ((hf.free i).mp he) (by omega)
      exact not_not.mp fun hz => hdead ⟨hfree, hz⟩
    · exact (hf.free i).mpr (by omega)
  parent := hf.parent
  ticks := hf.ticks

/-- The slot of the next child. -/
theorem Follows.firstFree (hf : Follows s v) {child : Pid}
    (hfree : Pke.firstFree s.procs = some child) : child.val = v.made + 1 := by
  obtain ⟨hchild, hbefore⟩ := firstFree_eq_some hfree
  have hlt := (hf.free child).mp hchild
  by_contra hne
  have hmade : v.made + 1 < child.val := by omega
  exact hbefore ⟨v.made + 1, by omega⟩ (Fin.lt_def.mpr hmade) ((hf.free _).mpr (Nat.lt_succ_self _))

theorem Follows.child_iff (hf : Follows s v) (pid : BitVec 32) :
    waitFlag s.procs v.rr.running pid (List.finRange 32) (-1) = -1 ↔
      ¬ ∃ i, v.parent i = some v.rr.running := by
  rw [waitFlag_eq_neg_one, not_exists]
  refine forall_congr' fun i => ?_
  rw [← hf.parent i]
  rfl

/-! ## The parts of a trap -/

/-- Code that keeps the scheduling data, then back to the current process. -/
theorem Follows.afterSwitch (hf : Follows s v) (hs : SchedSame { s with console := [] } s₁) :
    Follows (afterSwitch L v.rr.running s₁) v where
  inv := hf.inv.afterSwitch (hf.inv.sameQueue hs)
  free i := by
    rw [← hf.free i, show ((Pke.afterSwitch L v.rr.running s₁).procs i).status = _ from hs.status i]
  parent i := (hs.parent i).trans (hf.parent i)
  ticks i := (hs.tickCount i).trans (hf.ticks i)

theorem Rotated.role (hr : Rotated t s s' c Q q Q') : ∀ i, SameRole s s' i := by
  obtain ⟨horder, -, hstep, -⟩ := hr
  have hlen := congrArg List.length horder
  cases hstep with
  | stay hrole => exact hrole
  | fork child => simp at hlen
  | rotate _ _ _ hrole => exact hrole
  | exit _ _ hq => simp [hq] at hlen

/-- The current process went to the end of the queue; `rr` is the roster's
    scheduler just before. -/
theorem Follows.rotated (hf : Follows s v) {rr : RoundRobin Pid TIME_SLICE_LEN.toNat}
    (htasks : rr.tasks = v.rr.tasks) (hrot : Rotated t s s' v.rr.running v.rr.queue q Q')
    (hticks : ∀ i, (s'.procs i).tickCount = (rr.used i).val) :
    Follows s' { v with rr := rr.rotate } := by
  obtain ⟨hrun, hqueue⟩ := List.cons.inj htasks
  have hnext : rr.rotate.tasks = q :: Q' := by
    rw [RoundRobin.rotate_tasks, hrun, hqueue, hrot.order]
  obtain ⟨rfl, rfl⟩ := List.cons.inj hnext
  constructor
  · exact hrot.inv
  · intro i
    rw [← hf.free i, (hrot.role i).1]
  · exact fun i => (hrot.role i).2.trans (hf.parent i)
  · exact hticks

/-- The end of `sys_user_yield`, `wait` and `rrsched`, which were entered in `s₁`. -/
theorem Follows.handedOver (hf : Follows s v) {rr : RoundRobin Pid TIME_SLICE_LEN.toNat}
    (htasks : rr.tasks = v.rr.tasks) (hticks : ∀ i, (s₁.procs i).tickCount = (rr.used i).val)
    (hrot : Rotated t s s' v.rr.running v.rr.queue q Q') (hover : HandedOver L q s₁ s') :
    Follows s' { v with rr := rr.rotate } :=
  hf.rotated htasks hrot fun i => (hover.tickCount i).trans (hticks i)

/-- `wait` of a process without children. -/
theorem wait_childless {pid : BitVec 32} (hcur : s₁.current = some c)
    (hflag : waitFlag s₁.procs c pid (List.finRange 32) (-1) = -1) :
    wait L pid s₁ = .ret (-1) s₁ := by
  rw [wait, Prog.bind_of_ret (currentProc_eq hcur), Prog.bind_of_ret (Prog.gets_apply _ _),
    if_pos hflag]
  rfl

/-- A step that drops the current process. -/
theorem SchedStep.role_of_exit (hstep : SchedStep t s s' c (q :: Q') q Q') :
    (s'.procs c).status = .ZOMBIE ∧ (s'.procs c).parent = (s.procs c).parent ∧
      ∀ i, i ≠ c → SameRole s s' i := by
  have hne : ∀ l : List Pid, q :: Q' ++ l ≠ Q' := fun l he => by
    have := congrArg List.length he
    simp at this
    omega
  generalize hQ : q :: Q' = Q₁ at hstep hne
  cases hstep with
  | stay => exact absurd (List.append_nil _) (hne [])
  | fork child => exact absurd rfl (hne [child])
  | rotate _ _ hq =>
    have := congrArg List.length hq
    simp [← hQ] at this
  | exit _ _ _ hzombie hparent hrole => exact ⟨hzombie, hparent, hrole⟩

/-- The end of `sys_user_exit` with a process in the queue. -/
theorem Follows.exit {α β : Type} {k : α → KernelM β} (hf : Follows s v) (t : TrapInput)
    (hs : SchedSame { s with console := [] } s₁) {rr : RoundRobin Pid TIME_SLICE_LEN.toNat}
    (hleave : v.rr.leave = some rr) :
    ∃ q s', (do freeProcess v.rr.running; schedule L >>= k) s₁ = returning L q s' ∧
      Follows s' { v with rr := rr } := by
  obtain ⟨htasks, hused⟩ := RoundRobin.leave_eq hleave
  have hinv := hf.inv
  rw [← htasks] at hinv
  have hq := hinv.sameQueue hs
  obtain ⟨s', hrun, hinv', hstep, hticks⟩ := hinv.exit_cons (L := L) (t := t) (k := k) hq
  obtain ⟨hzombie, hparent, hrole⟩ := hstep.role_of_exit
  refine ⟨_, s', hrun, hinv', fun i => ?_, fun i => ?_, fun i => ?_⟩
  · by_cases hi : i = v.rr.running
    · have hlive := (hinv.live i).mp (by rw [hi]; exact List.mem_cons_self)
      refine (iff_of_false ?_ (mt (hf.free i).mpr hlive.1) :)
      rw [hi, hzombie]
      decide
    · rw [(hrole i hi).1]
      exact hf.free i
  · by_cases hi : i = v.rr.running
    · rw [hi, hparent]
      exact hf.parent _
    · exact (hrole i hi).2.trans (hf.parent i)
  · rw [hticks i, hs.tickCount i, hused]
    exact hf.ticks i

/-- A new child at the end of the queue. -/
theorem Follows.forked {child : Pid} (hf : Follows s v)
    (hfork : Forked s s₂ v.rr.running child v.rr.queue) :
    ∃ v', v.step .fork = some v' ∧ Follows (Pke.afterSwitch L v.rr.running s₂) v' := by
  have hchild := hf.firstFree hfork.free
  have hfree := firstFree_status hfork.free
  have hnew : child ∉ v.rr.tasks := fun hm => ((hf.inv.live child).mp hm).1 hfree
  have hevent : v.event .fork = some (.spawn child) := by
    have hlt := child.isLt
    rw [Roster.event, dif_pos (by omega)]
    exact congrArg (fun i => some (RoundRobin.Event.spawn i)) (Fin.ext hchild.symm)
  refine ⟨_, Roster.step_of_event hevent (dif_neg hnew), hf.inv.afterFork hfork, fun i => ?_,
    fun i => ?_, fun i => (hfork.tick i).trans (hf.ticks i)⟩
  · change (s₂.procs i).status = .FREE ↔ v.made + 1 < i.val
    by_cases hi : i = child
    · subst hi
      refine iff_of_false ?_ (by omega)
      rw [hfork.born.1]
      decide
    · have hne : i.val ≠ v.made + 1 := fun he => hi (Fin.ext (he.trans hchild.symm))
      rw [(hfork.role i hi).1, hf.free i]
      omega
  · change (s₂.procs i).parent = Function.update v.parent child (some v.rr.running) i
    by_cases hi : i = child
    · subst hi
      rw [Function.update_self, hfork.born.2]
    · rw [Function.update_of_ne hi, (hfork.role i hi).2, hf.parent i]

/-! ## Every trap -/

/-- The outcome of a trap, or of a part of its handler: if it comes back to user
    mode, the roster has made the step for `k`. -/
abbrev RosterWp (v : Roster) (k : SchedCall) (p : KernelM Unit) (s₁ : Kernel) : Prop :=
  Prog.wp p (fun _ _ => False) (fun s' => ∃ v', v.step k = some v' ∧ Follows s' v')
    (fun _ => True) s₁

variable {k : SchedCall}

theorem rosterWp_quiet {α : Type} {p : KernelM α} {f : α → KernelM Unit}
    (hs : SchedSame { s with console := [] } s₁) (hp : Quiet p)
    (hk : ∀ a s₂, SchedSame { s with console := [] } s₂ → RosterWp v k (f a) s₂) :
    RosterWp v k (p >>= f) s₁ := by
  refine Prog.wp_bind.mpr (Prog.wp_mono (hp.wp s₁) (fun a s₂ hs₂ => ?_) (fun _ h => h.elim)
    fun _ _ => trivial)
  exact hk a s₂ (IsTrans.trans _ _ _ hs hs₂)

theorem rosterWp_of_returning {p : KernelM Unit} (he : p s₁ = returning L q s')
    (hv : v.step k = some v') (hf : Follows s' v') : RosterWp v k p s₁ :=
  wp_of_returning he ⟨v', hv, hf⟩ fun _ => trivial

theorem rosterWp_resume (hf : Follows s v) (hs : SchedSame { s with console := [] } s₁)
    (hk : v.event k = some .keep) : RosterWp v k (resume L) s₁ :=
  rosterWp_of_returning (resume_eq (hs.current.trans hf.inv.current)) (Roster.step_of_event hk rfl)
    (hf.afterSwitch hs)

theorem rosterWp_finishSyscall {tf r : Word} (hf : Follows s v)
    (hs : SchedSame { s with console := [] } s₁) (hk : v.event k = some .keep) :
    RosterWp v k (finishSyscall L tf r) s₁ :=
  rosterWp_quiet hs (onPhys_quiet (store_quiet _ _)) fun _ _ hs₂ => rosterWp_resume hf hs₂ hk

theorem rosterWp_yield {f : Word → KernelM Unit} (hf : Follows s v) (t : TrapInput)
    (hs : SchedSame { s with console := [] } s₁) :
    RosterWp v .yield (sysUserYield L >>= f) s₁ := by
  obtain ⟨s', q, Q', hrun, hrot, hover⟩ := sysUserYield_exit (L := L) (t := t) hf.inv hs
  exact rosterWp_of_returning (bind_of_returning hrun f) (Roster.step_of_event rfl rfl)
    (hf.handedOver rfl (fun i => (hs.tickCount i).trans (hf.ticks i)) hrot hover)

theorem rosterWp_wait {pid : BitVec 32} {tf : Word} (hf : Follows s v) (t : TrapInput)
    (hs : SchedSame { s with console := [] } s₁) (hprocs : s₁.procs = s.procs) :
    RosterWp v .wait (wait L pid >>= finishSyscall L tf) s₁ := by
  have hcur := hs.current.trans hf.inv.current
  have hchild := hf.child_iff pid
  rw [← hprocs] at hchild
  by_cases hflag : waitFlag s₁.procs v.rr.running pid (List.finRange 32) (-1) = -1
  · have hevent : v.event .wait = some .keep := congrArg some (if_neg (hchild.mp hflag))
    unfold RosterWp Prog.wp
    rw [Prog.bind_of_ret (wait_childless hcur hflag)]
    exact rosterWp_finishSyscall hf hs hevent
  · have hevent : v.event .wait = some .yield :=
      congrArg some (if_pos (not_not.mp (mt hchild.mpr hflag)))
    obtain ⟨s', q, Q', hrun, hrot, hover⟩ := wait_exit (L := L) (t := t) hf.inv hs hflag
    exact rosterWp_of_returning (bind_of_returning hrun _) (Roster.step_of_event hevent rfl)
      (hf.handedOver rfl (fun i => (hs.tickCount i).trans (hf.ticks i)) hrot hover)

theorem rosterWp_exit {a : Word} {f : Word → KernelM Unit} (hf : Follows s v) (t : TrapInput)
    (hs : SchedSame { s with console := [] } s₁) :
    RosterWp v .exit (sysUserExit L a >>= f) s₁ := by
  cases hleave : v.rr.leave with
  | none =>
    have hnil : v.rr.queue = [] := by
      by_contra hne
      rw [RoundRobin.leave, dif_neg hne] at hleave
      cases hleave
    have hinv := hf.inv
    rw [hnil] at hinv
    unfold RosterWp Prog.wp
    rw [Prog.bind_of_halt (sysUserExit_nil hinv hs a) f]
    trivial
  | some rr =>
    obtain ⟨s₂, hs₂, hexit⟩ := sysUserExit_eq (L := L) (hs.current.trans hf.inv.current) a
    obtain ⟨q, s', hrun, hf'⟩ := hf.exit (L := L) (k := fun _ : Unit => (pure 0 : KernelM Word)) t
      (IsTrans.trans _ _ _ hs hs₂) hleave
    exact rosterWp_of_returning (bind_of_returning (hexit.trans hrun) f)
      (Roster.step_of_event rfl hleave) hf'

theorem rosterWp_fork {tf : Word} (hf : Follows s v)
    (hs : SchedSame { s with console := [] } s₁) (hprocs : s₁.procs = s.procs) :
    RosterWp v .fork (sysUserFork L >>= finishSyscall L tf) s₁ := by
  obtain ⟨s₂, hs₂, hprocs₂, hrun⟩ := sysUserFork_eq (L := L) (hs.current.trans hf.inv.current)
  refine Prog.wp_bind.mpr ?_
  unfold Prog.wp
  rw [hrun]
  refine Prog.wp_mono (doFork_sched hf.inv (IsTrans.trans _ _ _ hs hs₂) (hprocs₂.trans hprocs)) ?_
    (fun _ h => h.elim) fun _ _ => trivial
  rintro r s₃ ⟨child, hfork, -⟩
  obtain ⟨v', hv, hf'⟩ := hf.forked (L := L) (hfork.withPhys _)
  exact rosterWp_of_returning (finishSyscall_eq tf r (hfork.current.trans hf.inv.current)) hv hf'

theorem rosterWp_doSyscall {tf : Word} (hf : Follows s v)
    (hs : SchedSame { s with console := [] } s₁) (hprocs : s₁.procs = s.procs) :
    RosterWp v (syscallKind (t.regs .a0))
      (doSyscall L (t.regs .a0) (t.regs .a1) (t.regs .a2) >>= finishSyscall L tf) s₁ := by
  unfold doSyscall
  split_ifs with h1 h2 h3 h4 h5 h6 h7
  · rw [h1]
    exact rosterWp_quiet hs (sysUserPrint_quiet _ _) fun _ _ hs₂ =>
      rosterWp_finishSyscall hf hs₂ rfl
  · rw [h2]
    exact rosterWp_exit hf t hs
  · rw [h3]
    exact rosterWp_quiet hs sysUserAllocatePage_quiet fun _ _ hs₂ =>
      rosterWp_finishSyscall hf hs₂ rfl
  · rw [h4]
    exact rosterWp_quiet hs (sysUserFreePage_quiet _) fun _ _ hs₂ =>
      rosterWp_finishSyscall hf hs₂ rfl
  · rw [h5]
    exact rosterWp_fork hf hs hprocs
  · rw [h6]
    exact rosterWp_yield hf t hs
  · rw [h7]
    exact rosterWp_wait hf t hs hprocs
  · trivial

/-! ## The clock -/

theorem setTick_used {n : Fin (TIME_SLICE_LEN.toNat + 1)}
    (hticks : ∀ i, (s₁.procs i).tickCount = (v.rr.used i).val) (i : Pid) :
    (setTick s₁.procs v.rr.running n i).tickCount = ((v.rr.setUsed n).used i).val := by
  by_cases hi : i = v.rr.running
  · subst hi
    rw [RoundRobin.setUsed_used_self]
    simp [setTick]
  · rw [RoundRobin.setUsed_used_of_ne (Ne.symm hi), ← hticks i]
    simp [setTick, hi]

/-- `rrsched` is the tick of the round-robin scheduler. -/
theorem rosterWp_rrsched (hf : Follows s v) (t : TrapInput)
    (hs : SchedSame { s with console := [] } s₁) :
    RosterWp v .tick (rrsched L >>= fun _ => resume L) s₁ := by
  have hcur : s₁.current = some v.rr.running := hs.current.trans hf.inv.current
  have hq := hf.inv.sameQueue hs
  have hticks : ∀ i, (s₁.procs i).tickCount = (v.rr.used i).val := fun i =>
    (hs.tickCount i).trans (hf.ticks i)
  have hstep : v.step .tick = some { v with rr := v.rr.tick } :=
    Roster.step_of_event (e := .tick) rfl rfl
  have hcode := rrsched_eq (L := L) hf.inv hs
  rw [hticks] at hcode
  rcases v.rr.tick_eq with ⟨n, hn, htick⟩ | ⟨hlast, htick⟩
  · have hle := n.isLt
    have hcast : ((v.rr.used v.rr.running).val : ℤ) + 1 = n := by omega
    have hn2 : (n : ℤ) ≤ TIME_SLICE_LEN := by
      unfold TIME_SLICE_LEN at *
      omega
    rw [hcast, if_neg (not_lt.mpr hn2)] at hcode
    have hq₂ := hq.setTick (c := v.rr.running) (by omega) hn2
    refine rosterWp_of_returning ((Prog.bind_of_ret hcode _).trans (resume_eq hcur)) hstep ?_
    rw [htick]
    refine ⟨hf.inv.afterSwitch hq₂, fun i => ?_, fun i => ?_, setTick_used hticks⟩
    · exact (by rw [← hf.free i, ← (hq₂.role i).1]; rfl)
    · exact (hq₂.role i).2.trans (hf.parent i)
  · have hlt : TIME_SLICE_LEN < ((v.rr.used v.rr.running).val : ℤ) + 1 := by
      unfold TIME_SLICE_LEN at *
      omega
    rw [if_pos hlt] at hcode
    have hq₂ := hq.setTick (c := v.rr.running) (n := 0) le_rfl (by decide)
    have htasks : (v.rr.setUsed 0).tasks = v.rr.tasks := rfl
    obtain ⟨s', q, Q', hrun, hrot, hover⟩ := hf.inv.requeue (L := L) (t := t)
      (k := fun u : Unit => (pure u : KernelM Unit)) hq₂
    have hf' := hf.handedOver htasks (setTick_used (n := 0) hticks) hrot hover
    rw [Prog.bind_pure] at hrun
    rw [← htick] at hf'
    exact rosterWp_of_returning (bind_of_returning (hcode.trans hrun) _) hstep hf'

/-! ## Steps and runs -/

/-- **Every trap** that comes back to user mode is the step of the roster for its
    kind. -/
theorem Follows.trap (hf : Follows s v) : RosterWp v t.kind (trap L t) s := by
  by_cases hc : CanEnter L s v.rr.running
  · unfold RosterWp Prog.wp
    rw [trap_eq hf.inv.current hc]
    have hs := entered_same t v.rr.running s
    change RosterWp v t.kind _ (entered t v.rr.running s)
    unfold dispatchTrap
    split_ifs with hcall htimer hfault
    · have hkind : t.kind = syscallKind (t.regs .a0) := if_pos hcall
      unfold RosterWp Prog.wp
      rw [handleSyscall_resume hf.inv, hkind]
      exact rosterWp_doSyscall hf (inSyscall_same t v.rr.running s) rfl
    · have hkind : t.kind = .tick := by rw [TrapInput.kind, if_neg hcall, if_pos htimer]
      rw [Prog.bind_assoc, hkind]
      exact rosterWp_quiet hs handleMtimerTrap_quiet fun _ _ hs₂ => rosterWp_rrsched hf t hs₂
    · have hkind : t.kind = .other := by rw [TrapInput.kind, if_neg hcall, if_neg htimer]
      rw [Prog.bind_assoc, hkind]
      refine rosterWp_quiet hs (readCsr_quiet _) fun _ _ hs₂ => ?_
      rw [Prog.bind_assoc]
      refine rosterWp_quiet hs₂ (readCsr_quiet _) fun _ _ hs₃ => ?_
      exact rosterWp_quiet hs₃ (handleUserPageFault_quiet _ _ _) fun _ _ hs₄ =>
        rosterWp_resume hf hs₄ rfl
    · trivial
  · unfold RosterWp Prog.wp
    rw [trap_of_not_canEnter hf.inv.current hc]
    trivial

/-- **One step.** -/
theorem Follows.step {a : Action} (hf : Follows s v) (ha : Step L s a s') :
    ∃ v', v.step a.kind = some v' ∧ Follows s' v' := by
  cases ha with
  | trap ht =>
    obtain ⟨v', hv, hf'⟩ := Prog.wp_exit hf.trap ht
    exact ⟨v', hv, hf'⟩
  | store hst =>
    obtain ⟨mem, rfl⟩ := userStore_eq hst
    exact ⟨v, Roster.step_of_event (e := .keep) rfl rfl, hf.inv.store, hf.free, hf.parent,
      hf.ticks⟩

theorem Follows.imageOnly (hf : Follows s v) (ho : ImageOnly L s s') : Follows s' v := by
  rw [ho.rest]
  exact ⟨hf.inv.store, hf.free, hf.parent, hf.ticks⟩

/-- **Runs.** -/
theorem Follows.run {tr : List (Action × Kernel)} (hr : ImageRun L s tr s') :
    ∀ {v}, Follows s v → ∃ v', v.run (tr.map fun x => x.1.kind) = some v' ∧ Follows s' v' := by
  induction hr with
  | nil s => exact fun hf => ⟨_, rfl, hf⟩
  | cons ha ho hr ih =>
    intro v hf
    obtain ⟨v₁, hv₁, hf₁⟩ := hf.step ha
    obtain ⟨v', hv', hf'⟩ := ih (hf₁.imageOnly ho)
    refine ⟨v', ?_, hf'⟩
    rw [List.map_cons, Roster.run, List.foldlM_cons, hv₁]
    exact hv'

/-! ## Boot -/

theorem quiet_bind_exit {α β : Type} {p : KernelM α} {f : α → KernelM β} (hp : Quiet p)
    (hrun : (p >>= f) s₁ = .exit s') : ∃ a s₂, SchedSame s₁ s₂ ∧ f a s₂ = .exit s' := by
  rcases Prog.bind_eq_exit.mp hrun with hexit | ⟨a, s₂, hret, hrest⟩
  · exact (Prog.wp_exit (hp.wp s₁) hexit).elim
  · have hsame := Prog.wp_ret (hp.wp s₁) hret
    exact ⟨a, s₂, hsame, hrest⟩

/-- The last two calls of `s_start` find an empty process table but for the memory
    of the first process. -/
theorem sStart_idle {s₀ : Kernel} (hboot : sStart L h (coldStart h s₀) = .exit s) :
    ∃ s₁, Idle s₁ ∧ (do insertToReadyQueue 0; schedule L : KernelM Unit) s₁ = .exit s := by
  obtain ⟨_, s₁, h₁, hboot⟩ := quiet_bind_exit (sprint_text_quiet _ _) hboot
  obtain ⟨_, s₂, h₂, hboot⟩ := quiet_bind_exit (writeCsr_quiet _ _) hboot
  obtain ⟨_, s₃, h₃, hboot⟩ := quiet_bind_exit (pmmInit_quiet _) hboot
  obtain ⟨_, s₄, h₄, hboot⟩ := quiet_bind_exit (kernVmInit_quiet L) hboot
  obtain ⟨_, s₅, h₅, hboot⟩ := quiet_bind_exit enablePaging_quiet hboot
  obtain ⟨_, s₆, h₆, hboot⟩ := quiet_bind_exit (sprint_text_quiet _ _) hboot
  have hhead : s₆.readyQueueHead = none :=
    h₆.head.trans (h₅.head.trans (h₄.head.trans (h₃.head.trans (h₂.head.trans h₁.head))))
  have hout : dispatches s₆.console = [] :=
    h₆.out.trans (h₅.out.trans (h₄.out.trans (h₃.out.trans (h₂.out.trans h₁.out))))
  rw [initProcPool, Prog.bind_of_ret (Prog.modify_apply _ _)] at hboot
  have hidle : Idle { s₆ with procs := fun i =>
      { kstack := 0, pagetable := 0, trapframe := 0, mappedInfo := 0, totalMappedRegion := 0,
        pid := BitVec.ofNat 64 i, status := .FREE, parent := none, queueNext := none,
        tickCount := 0 } } :=
    ⟨fun _ => rfl, fun _ => rfl, fun _ => rfl, fun _ => rfl, hhead, hout⟩
  obtain ⟨_, s₇, h₇, hboot⟩ := quiet_bind_exit (sprint_text_quiet _ _) hboot
  rw [loadUserProgram, Prog.bind_assoc] at hboot
  rcases Prog.bind_eq_exit.mp hboot with hexit | ⟨c, s₈, hret, hboot⟩
  · exact (Prog.wp_exit (allocProcess_sched L s₇) hexit).elim
  obtain ⟨h₈, hfirst⟩ := Prog.wp_ret (allocProcess_sched L s₇) hret
  obtain rfl : c = 0 := Option.some.inj (hfirst.symm.trans (hidle.of_same h₇).firstFree)
  rw [Prog.bind_assoc] at hboot
  obtain ⟨_, s₉, h₉, hboot⟩ := quiet_bind_exit (sprint_text_quiet _ _) hboot
  rw [Prog.bind_assoc] at hboot
  obtain ⟨_, s₁₀, h₁₀, hboot⟩ := quiet_bind_exit (loadBincodeFromHostElf_quiet h 0) hboot
  exact ⟨s₁₀, (((hidle.of_same h₇).of_same h₈.same).of_same h₉).of_same h₁₀, hboot⟩

theorem Follows.boot {s₀ : Kernel} (hboot : sStart L h (coldStart h s₀) = .exit s) :
    Follows s Roster.boot := by
  obtain ⟨s₁, hidle, hrun⟩ := sStart_idle hboot
  obtain ⟨s₂, hrun', hbooted, hqueued⟩ := hidle.dispatch (L := L) 0
  obtain ⟨rfl, -⟩ := returning_exit (hrun'.symm.trans hrun)
  refine ⟨hbooted.sched, fun i => ?_, hbooted.parent, fun i => ?_⟩
  · by_cases hi : i = 0
    · subst hi
      refine iff_of_false ?_ (Nat.lt_irrefl 0)
      rw [hbooted.sched.ready 0 List.mem_cons_self]
      decide
    · exact iff_of_true (hbooted.free i hi) (Nat.pos_of_ne_zero fun he => hi (Fin.ext he))
  · exact (congrArg Process.tickCount (hqueued.procs i) :).trans (hidle.tick i)

theorem BootedStatic.follows {iso : Prop} (hb : BootedStatic iso L h s) :
    Follows s Roster.boot := by
  obtain ⟨s₀, s₁, hboot, ho⟩ := hb.boot
  exact (Follows.boot hboot).imageOnly ho

end Pke
