import Pke.Runs.Memory

/-!
# Results of system calls

A handler that returns to `handle_syscall` (`kernel/strap.c` lines 19–32) has its
result stored in the trapframe; `yield` leaves through `schedule` and does not.
The trapframe of a process that does not run is kept until it runs again.
-/

namespace Pke

open Lib

variable {iso : Prop} {L : Layout} {h : Host} {s s₁ s' : Kernel} {c p : Pid} {Q : List Pid}
  {t : TrapInput} {epc a0 : Word}

/-- The next entry of process `p` to user mode, from a state on, by steps that meet
    a condition. -/
inductive NextEntryVia (L : Layout) (ok : Kernel → Action → Prop) (p : Pid) :
    Kernel → Kernel → Prop
  | here {s : Kernel} (h : s.current = some p) : NextEntryVia L ok p s s
  | later {s s₁ s' : Kernel} {a : Action} (h : s.current ≠ some p) (hok : ok s a)
      (ha : Step L s a s₁) (hn : NextEntryVia L ok p s₁ s') : NextEntryVia L ok p s s'

/-- **The trapframe of a waiting process is kept** until it runs. -/
theorem NextEntryVia.saved (hn : NextEntryVia L (StepOk iso) p s s') :
    ∀ {c Q}, MemInv iso L s → SchedInv s c Q → p ∈ s.used → Saved s p epc a0 →
      Saved s' p epc a0 := by
  induction hn with
  | here _ => exact fun _ _ _ h => h
  | later hne hok ha _ ih =>
    intro c Q hm hsched hp hsaved
    have hleft := ha.left hm hsched hok
    obtain ⟨q, Q', hsched', -⟩ := hsched.step ha
    have hpc : p ≠ c := by
      rintro rfl
      exact hne hsched.current
    exact ih hleft.mem hsched' (hleft.moved.used hp) (hsaved.kept hleft.moved hp hpc)

/-- What the handler of a call is written to return, called in `s`. -/
def HandlerResult (s : Kernel) (n r : Word) : Prop :=
  if n = SYS_user_yield then r = 0 else Answer s n r

/-- The call returns, and is not `exit` or `wait`. -/
structure IsCall (t : TrapInput) : Prop where
  ecall : t.scause = CAUSE_USER_ECALL
  exit : t.regs .a0 ≠ SYS_user_exit
  wait : t.regs .a0 ≠ SYS_user_wait

/-- **Results of system calls.** At the next entry of the caller its trapframe holds
    the address behind the call and the result, exactly if the call is not `yield`; and
    so does that of a child, with 0 for the result. -/
theorem syscall_result_iff (hload : h.LoadsOk Set.univ) (hs : Reach L h (StepOk False) s)
    (hcur : s.current = some p) (ht : IsCall t) (hok : StepOk False s (.trap t))
    (hexit : trap L t s = .exit s₁) :
    (∃ r, HandlerResult s (t.regs .a0) r ∧
      ∀ s', NextEntryVia L (StepOk False) p s₁ s' →
        (Saved s' p (t.sepc + 4) r ↔ t.regs .a0 ≠ SYS_user_yield)) ∧
    (IsFork t → ∃ child, firstFree s.procs = some child ∧
      ∀ s', NextEntryVia L (StepOk False) child s₁ s' → Saved s' child (t.sepc + 4) 0) := by
  obtain ⟨hm, c, Q, hsched⟩ := hs.mem hload
  obtain rfl : c = p := Option.some.inj (hsched.current.symm.trans hcur)
  have hc : c ∈ s.used := ((hsched.live c).mp List.mem_cons_self).1
  have hstep : Step L s (.trap t) s₁ := .trap hexit
  have hleft := hstep.left hm hsched hok
  obtain ⟨q, Q', hsched₁, -⟩ := hsched.step hstep
  have hc₁ : c ∈ s₁.used := hleft.moved.used hc
  constructor
  · rcases (Prog.wp_exit (trap_mem hm hsched (hok c hcur)) hexit).1 ht.ecall with
      ⟨hn, hsaved⟩ | ⟨r, hr, hans⟩
    · -- `yield` is the only call left that does not come back
      have hy : t.regs .a0 = SYS_user_yield := by
        rcases hn with hn | hn | hn
        · exact absurd hn ht.exit
        · exact hn
        · exact absurd hn ht.wait
      refine ⟨0, by rw [HandlerResult, if_pos hy], fun s' hnext =>
        ⟨fun h0 => ?_, fun hne => absurd hy hne⟩⟩
      have h69 := (hnext.saved hleft.mem hsched₁ hc₁ hsaved).a0
      rw [hy, h0.a0] at h69
      cases h69
    · have hy : t.regs .a0 ≠ SYS_user_yield := by
        intro hy
        rw [hy] at hr
        rw [Answer, if_neg (by decide), if_neg (by decide), if_neg (by decide)] at hr
        exact absurd hr.1 (by decide)
      refine ⟨r, by rwa [HandlerResult, if_neg hy], fun s' hnext => ⟨fun _ => hy, fun _ => ?_⟩⟩
      exact hnext.saved hleft.mem hsched₁ hc₁ hans.saved
  · intro hfork
    obtain ⟨fl, hspace⟩ := hm.space
    obtain ⟨child, fl', hfree, hforked, hsaved⟩ := Prog.wp_exit
      (trap_forkStep hm hsched hspace (fun hf => hf.elim) hfork) hexit
    refine ⟨child, hfree, fun s' hnext => hnext.saved hleft.mem hsched₁ ?_ hsaved⟩
    rw [hforked.used]
    exact Set.mem_insert _ _

/-- The first process of the small application asks for a page. -/
theorem syscall_result_sample : ∃ s s₁ s', Reach sampleLayout (sampleHost 5 8) (StepOk False) s ∧
    trap sampleLayout (call SYS_user_allocate_page 0) s = .exit s₁ ∧
      NextEntryVia sampleLayout (StepOk False) 0 s₁ s' ∧ Saved s' 0 4 USER_FREE_ADDRESS_START := by
  obtain ⟨s, hboot, hb⟩ := sampleBoot
  obtain ⟨s₁, fl, fl₁, hexit, -, -, hgrant⟩ := sampleGrant hb
  have hok : StepOk False s (.trap (call SYS_user_allocate_page 0)) :=
    .of_not_free fun hf => absurd hf.2 (by decide)
  obtain ⟨⟨r, hr, hnext⟩, -⟩ := syscall_result_iff sampleHost_loads (.boot hboot)
    hb.booted.sched.current ⟨rfl, by decide, by decide⟩ hok hexit
  obtain rfl : r = USER_FREE_ADDRESS_START := by
    rw [← hb.heap]
    exact hr
  exact ⟨s, s₁, s₁, .boot hboot, hexit, .here hgrant.current,
    (hnext s₁ (.here hgrant.current)).mpr (by decide)⟩

/-- The first process yields, and goes on with the number of the call for its result. -/
theorem yield_result_lost : ∃ s s₁ s', Reachable sampleLayout (sampleHost 5 8) s ∧
    trap sampleLayout (call SYS_user_yield 0) s = .exit s₁ ∧
      NextEntryVia sampleLayout (StepOk False) 0 s₁ s' ∧ ¬ Saved s' 0 4 0 := by
  obtain ⟨s, hboot, hb⟩ := sampleBoot
  have hm := hb.memInv
  have hsched := hb.booted.sched
  obtain ⟨s₁, q, Q', hexit, hrot⟩ :=
    trap_yield_mem (t := call SYS_user_yield 0) hm hsched ⟨rfl, rfl⟩
  obtain rfl : q = 0 := (List.cons.inj hrot.order).1.symm
  refine ⟨s, s₁, s₁, .boot hboot, hexit, .here hrot.inv.current, fun h0 => ?_⟩
  have hok : TrapOk False s 0 (call SYS_user_yield 0) :=
    .of_not_free fun hf => absurd hf.2 (by decide)
  rcases (Prog.wp_exit (trap_mem hm hsched hok) hexit).1 rfl with ⟨-, hsaved⟩ | ⟨r, hr, -⟩
  · exact absurd (hsaved.a0.symm.trans h0.a0) (by decide)
  · rw [Answer, if_neg (by decide), if_neg (by decide), if_neg (by decide)] at hr
    exact absurd hr.1 (by decide)

end Pke
