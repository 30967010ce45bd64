import Pke.Runs.Ticks

/-!
# What the round-robin scheduler guarantees

Results:
* `kernel_refines_roster`: in every run from boot the process table and the ready
  queue are those of the abstract scheduler, fed with nothing but the kinds of
  the steps;
* `timer_ticks_fair`: a process that does not give up the hart gets at most
  `2 * TIME_SLICE_LEN + 1` timer ticks less than any other process.

Both are about the system with the variables of the kernel in memory. They hold
when the segments of the application lie at addresses of pages and processes
free only pages of their own; otherwise user code can reach the variables.
-/

namespace Pke

open Lib

variable {L : Layout} {P : Placement L} {h : Host} {s s' : Kernel} {p : Pid} {v v' : Roster}
  {k : SchedCall} {e : RoundRobin.Event Pid}

/-! ## Refinement -/

/-- **The kernel refines the abstract scheduler.** After any run from boot in which
    processes free only pages of their own, the current process, the ready queue and the
    status, parent and tick count of every slot are those of the roster that has made the
    steps of the same kinds. -/
theorem kernel_refines_roster {tr : List (Action × Kernel)} (hload : h.LoadsOk Set.univ)
    (hboot : P.Boots h s) (hr : StaticRun P (StepOk False) s tr s') :
    ∃ v, Roster.boot.run (tr.map fun x => x.1.kind) = some v ∧ v.Shows s' := by
  have hb := hboot.static False hload
  obtain ⟨v, hv, hf⟩ := Follows.run (hr.imageRun hb.inOrder).1 hb.follows
  exact ⟨v, hv, hf.shows⟩

/-- The first process forks, and its child waits in the queue. -/
theorem kernel_refines_roster_sample : ∃ s s', samplePlacement.Boots (sampleHost 5 8) s ∧
    StaticRun samplePlacement (StepOk False) s [(.trap (call SYS_user_fork 0), s')] s' ∧
      ReadyQueue s' [1] ∧ (s'.procs 1).parent = some 0 := by
  obtain ⟨s, s', hboot, hrun⟩ := sampleForkRun
  obtain ⟨v, hv, hshow⟩ := kernel_refines_roster sampleHost_loads hboot hrun
  cases hv
  exact ⟨s, s', hboot, hrun, hshow.queue, hshow.parent 1⟩

/-! ## Fairness -/

/-- The timer traps taken while process `p` runs. -/
def ticksOf (p : Pid) : Kernel → List (Action × Kernel) → ℕ
  | _, [] => 0
  | s, (a, s₁) :: tr => (if s.current = some p then a.timer else 0) + ticksOf p s₁ tr

/-- In no step of the run does process `p` give up the hart: it does not exit,
    yield or wait. -/
def KeepsRunning (p : Pid) : Kernel → List (Action × Kernel) → Prop
  | _, [] => True
  | s, (a, s₁) :: tr =>
    (s.current = some p → a.kind ≠ .exit ∧ a.kind ≠ .yield ∧ a.kind ≠ .wait) ∧
      KeepsRunning p s₁ tr

theorem syscallKind_ne_tick (a0 : Word) : syscallKind a0 ≠ .tick := by
  unfold syscallKind
  split_ifs <;> decide

theorem TrapInput.kind_eq_tick (t : TrapInput) :
    t.kind = .tick ↔ t.scause = CAUSE_MTIMER_S_TRAP := by
  unfold TrapInput.kind
  by_cases hcall : t.scause = CAUSE_USER_ECALL
  · rw [if_pos hcall, hcall]
    exact iff_of_false (syscallKind_ne_tick _) (by decide)
  · rw [if_neg hcall]
    split_ifs with htimer
    · exact iff_of_true rfl htimer
    · exact iff_of_false (by decide) htimer

theorem Action.timer_eq (a : Action) : a.timer = if a.kind = .tick then 1 else 0 := by
  cases a with
  | trap t => exact if_congr t.kind_eq_tick.symm rfl rfl
  | store va b => rfl

theorem Roster.event_fork (he : v.event .fork = some e) : ∃ i, e = .spawn i := by
  simp only [Roster.event, Option.dite_none_right_eq_some] at he
  obtain ⟨hlt, he⟩ := he
  exact ⟨_, (Option.some.inj he).symm⟩

theorem Roster.event_tick (he : v.event k = some e) : e = .tick ↔ k = .tick := by
  cases k with
  | tick => cases he; simp
  | yield => cases he; simp
  | wait =>
    cases he
    split_ifs <;> simp
  | fork =>
    obtain ⟨i, rfl⟩ := Roster.event_fork he
    simp
  | exit => cases he; simp
  | other => cases he; simp

theorem Roster.event_holds (he : v.event k = some e)
    (hk : k ≠ .exit ∧ k ≠ .yield ∧ k ≠ .wait) : e.Holds := by
  obtain ⟨hexit, hyield, hwait⟩ := hk
  cases k with
  | tick => cases he; trivial
  | yield => exact absurd rfl hyield
  | wait => exact absurd rfl hwait
  | fork =>
    obtain ⟨i, rfl⟩ := Roster.event_fork he
    trivial
  | exit => exact absurd rfl hexit
  | other => cases he; trivial

theorem Roster.next_rr (v : Roster) (rr : RoundRobin Pid TIME_SLICE_LEN.toNat)
    (e : RoundRobin.Event Pid) : (v.next rr e).rr = rr := by
  cases e <;> rfl

/-- The ticks of a step are charged to the current process. -/
theorem Follows.charge_eq {a : Action} (hf : Follows s v) (he : v.event a.kind = some e) :
    RoundRobin.charge p v.rr e = if s.current = some p then a.timer else 0 := by
  have hcur : s.current = some p ↔ v.rr.running = p := by
    rw [hf.inv.current]
    exact Option.some_inj
  rw [Action.timer_eq, ← ite_and]
  exact if_congr (and_comm.trans (and_congr hcur.symm (Roster.event_tick he))) rfl rfl

/-- The round-robin scheduler goes along with the run. -/
theorem Follows.trace {tr : List (Action × Kernel)} (hr : ImageRun L s tr s') :
    ∀ {v}, Follows s v → ∃ m' tr', RoundRobin.Trace v.rr tr' m' ∧
      (∀ p, RoundRobin.charged p tr' = ticksOf p s tr) ∧
      ∀ p, KeepsRunning p s tr → RoundRobin.Holds p tr' := by
  induction hr with
  | nil s =>
    intro v hf
    exact ⟨v.rr, [], .nil _, fun _ => rfl, fun p _ x hx => absurd hx List.not_mem_nil⟩
  | @cons s s₁ s₂ s' a tr ha ho hr ih =>
    intro v hf
    obtain ⟨v₁, hv₁, hf₁⟩ := hf.step ha
    obtain ⟨e, rr, he, hrr, rfl⟩ := Roster.event_of_step hv₁
    obtain ⟨m', tr', htrace, hticks, hholds⟩ := ih (hf₁.imageOnly ho)
    rw [Roster.next_rr] at htrace
    refine ⟨m', (v.rr, e) :: tr', .cons hrr htrace, fun p => ?_, fun p hp => ?_⟩
    · rw [RoundRobin.charged_cons, hticks, hf.charge_eq he]
      rfl
    · refine List.forall_mem_cons.mpr ⟨fun hrun => ?_, hholds p hp.2⟩
      refine Roster.event_holds he (hp.1 ?_)
      rw [hf.inv.current]
      exact congrArg some hrun

/-- **Fairness.** From any state `s` that a run from boot reaches, in any run on from it, with
    processes freeing only pages of their own: a live process that does not give up the
    hart is interrupted by at most `2 * TIME_SLICE_LEN + 1` timer ticks less than any
    other process, whatever the others do and however many they become. -/
theorem timer_ticks_fair {s₀ : Kernel} {tr₀ tr : List (Action × Kernel)}
    (hload : h.LoadsOk Set.univ) (hboot : P.Boots h s₀)
    (hs : StaticRun P (StepOk False) s₀ tr₀ s) (hr : StaticRun P (StepOk False) s tr s')
    (hp : (s.procs p).Live) (hkeep : KeepsRunning p s tr) (q : Pid) :
    (ticksOf q s tr : ℤ) ≤ ticksOf p s tr + (2 * TIME_SLICE_LEN + 1) := by
  have hb := hboot.static False hload
  obtain ⟨hrun₀, hord⟩ := hs.imageRun hb.inOrder
  obtain ⟨v, -, hf⟩ := Follows.run hrun₀ hb.follows
  obtain ⟨m', tr', htrace, hticks, hholds⟩ := Follows.trace (hr.imageRun hord).1 hf
  have hle := htrace.charged_le ((hf.inv.live p).mpr hp) (hholds p hkeep) q
  rw [hticks, hticks] at hle
  have hslice : (TIME_SLICE_LEN.toNat : ℤ) = TIME_SLICE_LEN := by decide
  omega

/-- The first process forks and is interrupted by the timer: it has one tick and its child,
    which is in the queue, none. -/
theorem timer_ticks_fair_sample : ∃ s₀ s s', samplePlacement.Boots (sampleHost 5 8) s₀ ∧
    StaticRun samplePlacement (StepOk False) s₀ [(.trap (call SYS_user_fork 0), s)] s ∧
    StaticRun samplePlacement (StepOk False) s [(.trap tickTrap, s')] s' ∧
    ticksOf 0 s [(.trap tickTrap, s')] = 1 ∧
    (ticksOf 0 s [(.trap tickTrap, s')] : ℤ) ≤
      ticksOf 1 s [(.trap tickTrap, s')] + (2 * TIME_SLICE_LEN + 1) := by
  obtain ⟨s₀, s, hboot, hfork⟩ := sampleForkRun
  have hb := hboot.static False sampleHost_loads
  obtain ⟨hrun, hord⟩ := hfork.imageRun hb.inOrder
  obtain ⟨v, hv, hf⟩ := Follows.run hrun hb.follows
  cases hv
  obtain ⟨s', htick⟩ := hf.tickRun hord.mem samplePlacement (by decide)
  have hcur : s.current = some 0 := hf.inv.current
  have hlive : (s.procs 1).Live := (hf.inv.live 1).mp (by decide)
  refine ⟨s₀, s, s', hboot, hfork, htick, ?_, timer_ticks_fair sampleHost_loads hboot hfork htick
    hlive ⟨fun h1 => absurd (hcur.symm.trans h1) (by decide), trivial⟩ 0⟩
  rw [ticksOf, if_pos hcur]
  rfl

end Pke
