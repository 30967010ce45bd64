import Pke.Kernel.Timer
import Pke.Runs.Ticks

/-!
# The tick count and the clock

The timer interrupts at `t₀ + TIMER_INTERVAL`, `t₀ + 2 * TIMER_INTERVAL` and so on
behind the time `t₀` of `timerinit`, however late M-mode gets to each of them. One
bit passes them on to S-mode, so an interrupt that comes before
`handle_mtimer_trap` has cleared the bit for the one before is lost. `Timer.Ok`
keeps the account: what has fired is counted in `g_ticks`, lost, or still to be
counted.

A run of the kernel takes part in the events of the hart by its traps
(`Action.timerEvents`), with the clock and M-mode in between at any moment.
`kernel_clock` is the account for such a run.
-/

namespace Pke

open Lib

variable {L : Layout} {P : Placement L} {h : Host} {s s' : Kernel} {v v' : Timer} {e : TimerEvent}
  {t₀ : ℕ} {es : List TimerEvent}

/-! ## The account -/

/-- One if an interrupt is on its way to `g_ticks++`. -/
def owed (sip : Word) (phase : Phase) : ℕ :=
  if sip &&& SIP_SSIP ≠ 0 ∧ phase ≠ .clear then 1 else 0

/-- See the module's comment. -/
structure Timer.Ok (t₀ : ℕ) (v : Timer) : Prop where
  early : v.mtime.toNat + TIMER_INTERVAL.toNat < 2 ^ 64
  schedule : v.mtimecmp.toNat = t₀ + TIMER_INTERVAL.toNat * (v.fired + 1)
  due : t₀ + TIMER_INTERVAL.toNat * v.fired ≤ v.mtime.toNat
  account : v.fired = v.gTicks.toNat + v.lost + owed v.sip v.phase
  handled : v.phase ≠ .kernel → v.phase ≠ .user → v.pending

theorem interval_toNat : TIMER_INTERVAL.toNat = 1000000 := rfl

theorem owed_clear (sip : Word) : owed sip .clear = 0 := if_neg fun h => h.2 rfl

theorem owed_pending (h : v.pending) {p : Phase} (hp : p ≠ .clear) : owed v.sip p = 1 :=
  if_pos ⟨h, hp⟩

theorem owed_zero (p : Phase) : owed 0 p = 0 := if_neg fun h => h.1 (by decide)

theorem owed_ssip {p : Phase} (hp : p ≠ .clear) : owed SIP_SSIP p = 1 := if_pos ⟨by decide, hp⟩

theorem owed_of_ne {sip : Word} {p p' : Phase} (hp : p ≠ .clear) (hp' : p' ≠ .clear) :
    owed sip p = owed sip p' := if_congr (and_congr_right fun _ => iff_of_true hp hp') rfl rfl

/-- Every other trap to M-mode stops the machine. -/
theorem handleMtrap_panics {mcause : Word} (hc : mcause ≠ CAUSE_MTIMER) (mepc mtval : Word)
    (v : Timer) : ∃ fmt, handleMtrap mcause mepc mtval v = .halt (.panic fmt []) := by
  unfold handleMtrap
  rw [if_neg hc]
  split_ifs <;> exact ⟨_, rfl⟩

/-- The timer interrupt in M-mode. -/
theorem Timer.step_mtrap {mcause mepc mtval : Word}
    (hs : v.step (.mtrap mcause mepc mtval) = some v') :
    v.mtimecmp ≤ v.mtime ∧
      v' = { v with
        mtimecmp := v.mtimecmp + TIMER_INTERVAL
        sip := SIP_SSIP
        fired := v.fired + 1
        lost := v.lost + if v.pending then 1 else 0 } := by
  by_cases hdue : mcause = CAUSE_MTIMER → v.mtimecmp ≤ v.mtime
  · rw [Timer.step, if_pos hdue] at hs
    by_cases hc : mcause = CAUSE_MTIMER
    · subst hc
      exact ⟨hdue rfl, (Option.some.inj hs).symm⟩
    · obtain ⟨fmt, hpanic⟩ := handleMtrap_panics hc mepc mtval v
      rw [hpanic] at hs
      cases hs
  · rw [Timer.step, if_neg hdue] at hs
    cases hs

/-- The count does not come to the end of its 64 bits either. -/
theorem Timer.Ok.gTicks_lt (hv : v.Ok t₀) : v.gTicks.toNat + 1 < 2 ^ 64 := by
  have hdue := hv.due
  have hacc := hv.account
  have hearly := hv.early
  rw [interval_toNat] at hdue hearly
  omega

/-- **One event** keeps the account. -/
theorem Timer.Ok.step (hv : v.Ok t₀) (hs : v.step e = some v') : v'.Ok t₀ := by
  have hroom := hv.gTicks_lt
  obtain ⟨hearly, hsched, hdue, hacc, hhand⟩ := hv
  have hmove : ∀ p, v.phase ≠ .clear → p ≠ .clear →
      v.fired = v.gTicks.toNat + v.lost + owed v.sip p := fun p h h' =>
    hacc.trans (congrArg _ (owed_of_ne h h'))
  cases e with
  | clock cycles =>
    simp only [Timer.step] at hs
    split_ifs at hs with hlt
    cases hs
    have hmtime : (v.mtime + BitVec.ofNat 64 cycles).toNat = v.mtime.toNat + cycles := by
      rw [BitVec.toNat_add, BitVec.toNat_ofNat, Nat.add_mod_mod, Nat.mod_eq_of_lt (by omega)]
    refine ⟨?_, hsched, ?_, hacc, hhand⟩
    · rwa [← hmtime] at hlt
    · exact (hdue.trans (Nat.le_add_right _ cycles)).trans hmtime.ge
  | mtrap mcause mepc mtval =>
    obtain ⟨hle, rfl⟩ := Timer.step_mtrap hs
    have hle : v.mtimecmp.toNat ≤ v.mtime.toNat := BitVec.le_def.mp hle
    have hnext : (v.mtimecmp + TIMER_INTERVAL).toNat =
        v.mtimecmp.toNat + TIMER_INTERVAL.toNat := by
      rw [BitVec.toNat_add, Nat.mod_eq_of_lt (by omega)]
    refine ⟨hearly, ?_, hsched.symm.trans_le hle, ?_, fun _ _ => (by decide : SIP_SSIP &&& _ ≠ 0)⟩
    · rw [hnext, hsched, Nat.mul_succ _ (v.fired + 1), Nat.add_assoc]
    · change v.fired + 1 = v.gTicks.toNat + (v.lost + if v.pending then 1 else 0) +
        owed SIP_SSIP v.phase
      by_cases hp : v.phase = .clear
      · -- `g_ticks++` is done, and the bit is about to be cleared
        have hset : v.pending := hhand (by rw [hp]; decide) (by rw [hp]; decide)
        rw [hp, owed_clear] at hacc ⊢
        rw [if_pos hset]
        omega
      · rw [owed_ssip hp]
        by_cases hset : v.pending
        · rw [owed_pending hset hp] at hacc
          rw [if_pos hset]
          omega
        · rw [owed, if_neg fun h => hset h.1] at hacc
          rw [if_neg hset]
          omega
  | enter =>
    simp only [Timer.step] at hs
    split_ifs at hs with hp
    cases hs
    refine ⟨hearly, hsched, hdue, ?_, fun hk _ => absurd rfl hk⟩
    exact hmove .kernel (by rw [hp]; decide) (by decide)
  | take =>
    simp only [Timer.step] at hs
    split_ifs at hs with hp
    cases hs
    refine ⟨hearly, hsched, hdue, ?_, fun _ _ => hp.2⟩
    exact hmove .print (by rw [hp.1]; decide) (by decide)
  | statement =>
    rw [Timer.step] at hs
    cases hp : v.phase with
    | kernel => rw [hp] at hs; cases hs
    | user => rw [hp] at hs; cases hs
    | print =>
      rw [hp] at hs
      cases hs
      have hset : v.pending := hhand (by rw [hp]; decide) (by rw [hp]; decide)
      refine ⟨hearly, hsched, hdue, ?_, fun _ _ => hset⟩
      exact hmove .count (by rw [hp]; decide) (by decide)
    | count =>
      rw [hp] at hs hacc
      cases hs
      have hset : v.pending := hhand (by rw [hp]; decide) (by rw [hp]; decide)
      refine ⟨hearly, hsched, hdue, ?_, fun _ _ => hset⟩
      have hcount : (v.gTicks + 1).toNat = v.gTicks.toNat + 1 := by
        rw [BitVec.toNat_add]
        exact Nat.mod_eq_of_lt hroom
      rw [owed_pending hset (by decide)] at hacc
      change v.fired = (v.gTicks + 1).toNat + v.lost + owed v.sip .clear
      rw [hcount, owed_clear]
      omega
    | clear =>
      rw [hp] at hs
      cases hs
      rw [hp, owed_clear] at hacc
      refine ⟨hearly, hsched, hdue, ?_, fun hk _ => absurd rfl hk⟩
      exact hacc.trans (congrArg _ (owed_zero _).symm)
  | leave =>
    simp only [Timer.step] at hs
    split_ifs at hs with hp
    cases hs
    refine ⟨hearly, hsched, hdue, ?_, fun _ hu => absurd rfl hu⟩
    exact hmove .user (by rw [hp]; decide) (by decide)

/-- **A whole run** of the hart. -/
theorem Timer.Ok.run (hv : v.Ok t₀) (hs : v.run es = some v') : v'.Ok t₀ := by
  induction es generalizing v with
  | nil =>
    obtain rfl := Option.some.inj hs
    exact hv
  | cons e es ih =>
    obtain ⟨v₁, hstep, hrest⟩ := Option.bind_eq_some_iff.mp hs
    exact ih (hv.step hstep) hrest

/-- `timerinit` opens the account. -/
theorem timerinit_ok (hroom : v.mtime.toNat + TIMER_INTERVAL.toNat < 2 ^ 64)
    (hinit : timerinit v.cold = .ret () v') : v'.Ok v.mtime.toNat := by
  obtain ⟨-, rfl⟩ := Out.ret.inj hinit
  refine ⟨hroom, ?_, ?_, ?_, fun hk _ => absurd rfl hk⟩
  · change (v.mtime + TIMER_INTERVAL).toNat = v.mtime.toNat + TIMER_INTERVAL.toNat * (0 + 1)
    rw [BitVec.toNat_add, Nat.mod_eq_of_lt hroom, Nat.zero_add, Nat.mul_one]
  · exact Nat.le_refl _
  · change 0 = 0 + 0 + owed 0 .kernel
    rw [owed_zero]

/-- Once M-mode has caught up, every interval has had its interrupt. -/
theorem Timer.Ok.fired_eq (hv : v.Ok t₀) (hlt : v.mtime < v.mtimecmp) :
    v.fired = (v.mtime.toNat - t₀) / TIMER_INTERVAL.toNat := by
  have hlt : v.mtime.toNat < v.mtimecmp.toNat := BitVec.lt_def.mp hlt
  have hdue := hv.due
  rw [hv.schedule] at hlt
  rw [interval_toNat] at hlt hdue ⊢
  omega

/-! ## Runs of the kernel -/

/-- An event of S- or U-mode. -/
def TimerEvent.smode : TimerEvent → Bool
  | .clock _ => false
  | .mtrap _ _ _ => false
  | .enter => true
  | .take => true
  | .statement => true
  | .leave => true

/-- What the event does to the phase and to `g_ticks`. -/
def TimerEvent.apply : Phase × Word → TimerEvent → Option (Phase × Word)
  | (.user, n), .enter => some (.kernel, n)
  | (.user, n), .take => some (.print, n)
  | (.print, n), .statement => some (.count, n)
  | (.count, n), .statement => some (.clear, n + 1)
  | (.clear, n), .statement => some (.kernel, n)
  | (.kernel, n), .leave => some (.user, n)
  | _, _ => none

/-- The events by which a step of the kernel takes part. -/
def Action.timerEvents : Action → List TimerEvent
  | .trap t =>
    if t.scause = CAUSE_MTIMER_S_TRAP then [.take, .statement, .statement, .statement, .leave]
    else [.enter, .leave]
  | .store _ _ => []

/-- M-mode and the clock do not touch `g_ticks`. -/
theorem Timer.step_machine (hs : v.step e = some v') (he : e.smode = false) :
    (v'.phase, v'.gTicks) = (v.phase, v.gTicks) := by
  cases e with
  | clock cycles =>
    simp only [Timer.step] at hs
    split_ifs at hs
    cases hs
    rfl
  | mtrap mcause mepc mtval =>
    obtain ⟨-, rfl⟩ := Timer.step_mtrap hs
    rfl
  | enter => cases he
  | take => cases he
  | statement => cases he
  | leave => cases he

theorem Timer.step_smode (hs : v.step e = some v') (he : e.smode = true) :
    TimerEvent.apply (v.phase, v.gTicks) e = some (v'.phase, v'.gTicks) := by
  cases e with
  | clock cycles => cases he
  | mtrap mcause mepc mtval => cases he
  | enter =>
    simp only [Timer.step] at hs
    split_ifs at hs with hp
    cases hs
    rw [hp]
    rfl
  | take =>
    simp only [Timer.step] at hs
    split_ifs at hs with hp
    cases hs
    rw [hp.1]
    rfl
  | statement =>
    rw [Timer.step] at hs
    cases hp : v.phase <;> rw [hp] at hs <;> cases hs <;> rfl
  | leave =>
    simp only [Timer.step] at hs
    split_ifs at hs with hp
    cases hs
    rw [hp]
    rfl

/-- However the clock and M-mode come in between, the phase and `g_ticks` are what the
    events of S-mode make of them. -/
theorem Timer.run_smode (hs : v.run es = some v') :
    (es.filter TimerEvent.smode).foldlM TimerEvent.apply (v.phase, v.gTicks) =
      some (v'.phase, v'.gTicks) := by
  induction es generalizing v with
  | nil =>
    obtain rfl := Option.some.inj hs
    rfl
  | cons e es ih =>
    obtain ⟨v₁, hstep, hrest⟩ := Option.bind_eq_some_iff.mp hs
    have hrest := ih hrest
    cases he : e.smode with
    | false =>
      rw [List.filter_cons_of_neg (by rw [he]; decide), ← Timer.step_machine hstep he]
      exact hrest
    | true =>
      rw [List.filter_cons_of_pos he, List.foldlM_cons, Timer.step_smode hstep he]
      exact hrest

/-- A step of the kernel counts its timer interrupt. -/
theorem Action.apply_timerEvents (a : Action) (n : Word) :
    a.timerEvents.foldlM TimerEvent.apply (.user, n) =
      some (.user, n + BitVec.ofNat 64 a.timer) := by
  cases a with
  | trap t =>
    rw [Action.timerEvents, Action.timer]
    split_ifs
    · rfl
    · exact congrArg (fun w => some (Phase.user, w)) (BitVec.add_zero n).symm
  | store va b => exact congrArg (fun w => some (Phase.user, w)) (BitVec.add_zero n).symm

theorem apply_timerEvents (tr : List (Action × Kernel)) (n : Word) :
    (tr.flatMap fun x => x.1.timerEvents).foldlM TimerEvent.apply (.user, n) =
      some (.user, n + BitVec.ofNat 64 (timers tr)) := by
  induction tr generalizing n with
  | nil => exact congrArg (fun w => some (Phase.user, w)) (BitVec.add_zero n).symm
  | cons x tr ih =>
    rw [List.flatMap_cons, List.foldlM_append, x.1.apply_timerEvents, timers_cons,
      BitVec.ofNat_add, ← BitVec.add_assoc]
    exact ih _

/-- **The tick count and the clock.** The kernel runs from boot on, with the segments of
    the application at addresses of pages and processes that free only pages of their own,
    and with it the clock and the timer interrupts to M-mode, at any moments. Then each timer
    interrupt so far is counted in `g_ticks`, was lost because it came before the
    one before it was cleared, or is still to be counted; `g_ticks` is never ahead
    of the clock; and while no interrupt is due and none was lost, it is behind by
    at most the one that is still to be counted. -/
theorem kernel_clock {v₀ : Timer} {tr : List (Action × Kernel)} (hload : h.LoadsOk Set.univ)
    (hboot : P.Boots h s) (hr : StaticRun P (StepOk False) s tr s')
    (hroom : v₀.mtime.toNat + TIMER_INTERVAL.toNat < 2 ^ 64)
    (hinit : timerinit v₀.cold = .ret () v) (hv : v.run es = some v')
    (hes : es.filter TimerEvent.smode = .leave :: tr.flatMap fun x => x.1.timerEvents) :
    v'.fired = s'.gTicks.toNat + v'.lost + owed v'.sip v'.phase ∧
      s'.gTicks.toNat * TIMER_INTERVAL.toNat ≤ v'.mtime.toNat - v₀.mtime.toNat ∧
      (v'.mtime < v'.mtimecmp → v'.lost = 0 →
        s'.gTicks.toNat + owed v'.sip v'.phase =
          (v'.mtime.toNat - v₀.mtime.toNat) / TIMER_INTERVAL.toNat) := by
  have hb := hboot.static False hload
  have hok := (timerinit_ok hroom hinit).run hv
  have hcount : s'.gTicks = v'.gTicks := by
    obtain ⟨-, rfl⟩ := Out.ret.inj hinit
    have hsmode := Timer.run_smode hv
    rw [hes, List.foldlM_cons] at hsmode
    have hticks := (apply_timerEvents tr 0).symm.trans hsmode
    rw [(hr.imageRun hb.inOrder).1.ticks.1, hb.gTicks]
    exact congrArg Prod.snd (Option.some.inj hticks)
  have hacc := hok.account
  have hdue := hok.due
  rw [hcount]
  refine ⟨hacc, ?_, fun hlt hlost => ?_⟩
  · rw [interval_toNat] at hdue ⊢
    omega
  · rw [← hok.fired_eq hlt, hacc, hlost, Nat.add_zero]

/-- The timer at reset. -/
def sampleTimer : Timer :=
  { mtime := 0, mtimecmp := 0, sip := 0, gTicks := 0, console := [], phase := .kernel
    fired := 0, lost := 0 }

/-- An interval after boot the timer interrupts, and the kernel counts the interrupt. -/
def sampleEvents : List TimerEvent :=
  [.leave, .clock 1000000, .mtrap CAUSE_MTIMER 0 0, .take, .statement, .clock 5, .statement,
    .statement, .leave]

theorem kernel_clock_sample : ∃ s s' v v', samplePlacement.Boots (sampleHost 5 8) s ∧
    StaticRun samplePlacement (StepOk False) s [(.trap tickTrap, s')] s' ∧
    timerinit sampleTimer.cold = .ret () v ∧ v.run sampleEvents = some v' ∧
    v'.fired = s'.gTicks.toNat + v'.lost + owed v'.sip v'.phase ∧
    s'.gTicks.toNat * TIMER_INTERVAL.toNat ≤ v'.mtime.toNat - 0 := by
  obtain ⟨s, s', hboot, hrun⟩ := sampleTick
  have hinit : timerinit sampleTimer.cold =
      .ret () { sampleTimer with mtimecmp := 0 + TIMER_INTERVAL } := rfl
  obtain ⟨v', hv⟩ := Option.isSome_iff_exists.mp
    (by decide : ({ sampleTimer with mtimecmp := 0 + TIMER_INTERVAL }.run sampleEvents).isSome)
  have hclock := kernel_clock sampleHost_loads hboot hrun (by decide) hinit hv rfl
  exact ⟨s, s', _, v', hboot, hrun, hinit, hv, hclock.1, hclock.2.1⟩

end Pke
