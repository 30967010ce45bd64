import Pke.Spike.Handshake

/-!
# The calls to the host

A specification for each function of `spike_htif.c` and for `frontend_syscall`, for every
interleaving with the host: `checkFromhost_spec`, `setTohost_spec`, `waitFromhost_spec`,
`doTohostFromhost_spec`, `frontendSyscall_spec`, `htifConsolePutchar_spec` and
`htifConsoleGetchar_spec`. `__check_fromhost` runs only where the reply in `fromhost` is one of
the console, so its assertions hold; a loop that waits can always be left, because the host can
take the command, serve it and write its replies.
-/

namespace Pke

open Lib Relation
open Code (Stable Triple)

variable {W : Type} {serve : W → List Word → Word × W} {magic : Word} {st : Stage} {x : HtifVars}
  {v : HtifView W} {s t : Htif W}

/-! ## `__check_fromhost` -/

/-- The kernel writes a command only into an empty `tohost`, and only clears `fromhost`. -/
def Disciplined (s t : Htif W) : Prop :=
  (t.tohost ≠ s.tohost → s.tohost = 0) ∧ (t.fromhost ≠ s.fromhost → t.fromhost = 0)

theorem Disciplined.same (hto : t.tohost = s.tohost) (hfrom : t.fromhost = s.fromhost) :
    Disciplined s t := ⟨fun h => absurd hto h, fun h => absurd hfrom h⟩

theorem Disciplined.refl (s : Htif W) : Disciplined s s := .same rfl rfl

/-- The reply that `__check_fromhost` will see is one of the console. -/
def FromConsole (st : Stage) (s : Htif W) : Prop :=
  st.sent = false ∧ st.owed = 0 ∨ s.fromhost ≠ 0 ∧ fromhostDev s.fromhost = 1

theorem FromConsole.host (h : FromConsole st s) (hstep : HostStep serve s t) :
    FromConsole st t := by
  obtain h | ⟨h0, hdev⟩ := h
  · exact .inl h
  · have hkeep := hstep.fromhost h0
    exact .inr ⟨hkeep ▸ h0, hkeep ▸ hdev⟩

theorem HtifLink.fromhost_known (h : HtifLink magic st x v s) (h0 : s.fromhost ≠ 0) :
    KnownReply s.fromhost :=
  h.known _ (by rw [Htif.inflight_take h0]; exact List.mem_cons_self)

/-- A reply to a system call is owed. -/
theorem HtifLink.owed_pos (h : HtifLink magic st x v s) (h0 : s.fromhost ≠ 0)
    (hdev : fromhostDev s.fromhost = 0) : 0 < st.owed := by
  rw [← h.owed, List.countP_pos_iff]
  exact ⟨s.fromhost, by rw [Htif.inflight_take h0]; exact List.mem_cons_self, by simp [hdev]⟩

theorem HtifLink.fromConsole (h : HtifLink magic st x v s) (hc : FromConsole st s)
    (h0 : s.fromhost ≠ 0) : ConsoleMsg s.fromhost := by
  obtain ⟨-, ⟨hdev, -⟩ | hmsg⟩ := h.fromhost_known h0
  · obtain ⟨-, howed⟩ | ⟨-, hone⟩ := hc
    · exact absurd howed (h.owed_pos h0 hdev).ne'
    · exact absurd (hdev.symm.trans hone) (by decide)
  · exact hmsg

/-- `x` with another value of `htif_console_buf`. -/
def HtifVars.buf (x : HtifVars) (b : ℤ) : HtifVars := { x with htifConsoleBuf := b }

@[simp] theorem HtifVars.buf_mem (x : HtifVars) (b : ℤ) : (x.buf b).mem = x.mem := rfl

theorem Coupled.take (h : Coupled serve magic st x v s) (hc : FromConsole st s)
    (h0 : s.fromhost ≠ 0) (hhand : st.hand = []) : ConsoleMsg s.fromhost ∧
      Coupled serve magic { st with hand := (charOf s.fromhost).toList } x v
        { s with fromhost := 0 } := by
  have hmsg : ConsoleMsg s.fromhost := by
    obtain h | ⟨hsent, h⟩ := h
    · exact h.fromConsole hc h0
    · refine h.fromConsole (.inr ?_) h0
      exact hc.resolve_left fun hns => absurd (hsent.symm.trans hns.1) (by decide)
  refine ⟨hmsg, h.imp (fun h => ?_) fun ⟨hsent, h⟩ => ⟨hsent, ?_⟩⟩
  all_goals
    have htake := h.take h0
    rw [if_neg (by rw [hmsg.1]; decide), Nat.sub_zero] at htake
    simpa only [hhand, List.nil_append] using htake

theorem Coupled.keep {ch : BitVec 8} (h : Coupled serve magic { st with hand := [ch] } x v s)
    (hone : st.requests ≤ 1) :
    Coupled serve magic { st with hand := [] } (x.buf (1 + ch.toNat)) v
      { s with vars := { s.vars with htifConsoleBuf := 1 + ch.toNat } } :=
  h.imp (fun h => h.keep rfl hone) fun ⟨hsent, h⟩ => ⟨hsent, h.keep rfl hone⟩

/-- Coupled, with any value of `htif_console_buf`. -/
def CoupledBuf (serve : W → List Word → Word × W) (magic : Word) (st : Stage) (x : HtifVars)
    (v : HtifView W) (s : Htif W) : Prop :=
  ∃ b, Coupled serve magic st (x.buf b) v s

theorem CoupledBuf.stable (hm : magic.toNat < 2 ^ 48) :
    Stable (HostStep serve) (CoupledBuf serve magic st x v) :=
  Stable.exists fun _ => Coupled.stable hm

theorem CoupledBuf.of_link (h : HtifLink magic st x v s) : CoupledBuf serve magic st x v s :=
  ⟨x.htifConsoleBuf, .inl h⟩

theorem FromConsole.stable : Stable (HostStep serve) (FromConsole st) :=
  fun _ _ hs hstep => hs.host hstep

theorem checkFromhost_spec (hm : magic.toNat < 2 ^ 48) (hhand : st.hand = [])
    (hone : st.requests ≤ 1) :
    Triple (HostStep serve) Disciplined
      (fun s => CoupledBuf serve magic st x v s ∧ FromConsole st s) Htif.checkFromhost
      fun _ => CoupledBuf serve magic st x v := by
  have hst : { st with hand := [] } = st := by rw [← hhand]
  refine Triple.read (fun fh s => (CoupledBuf serve magic st x v s ∧ FromConsole st s) ∧
    (fh ≠ 0 → s.fromhost = fh)) ((CoupledBuf.stable hm).and .stable) Disciplined.refl
    (fun s hs => ⟨hs, fun _ => rfl⟩) fun fh => ?_
  by_cases h0 : fh = 0
  · rw [if_pos h0]
    exact Triple.pre (Triple.ret (CoupledBuf.stable hm) fun _ hs => hs) fun s hs => hs.1.1
  rw [if_neg h0]
  refine Triple.write (fun s => ConsoleMsg fh ∧
    CoupledBuf serve magic { st with hand := (charOf fh).toList } x v s) ?_ ?_ ?_
  · intro s t hs hstep
    refine ⟨((CoupledBuf.stable hm).and .stable) _ _ hs.1 hstep, fun _ => ?_⟩
    rw [hstep.fromhost (by rw [hs.2 h0]; exact h0), hs.2 h0]
  · rintro s ⟨⟨⟨b, hs⟩, hc⟩, hfh⟩
    obtain rfl := hfh h0
    obtain ⟨hmsg, htake⟩ := hs.take hc h0 hhand
    exact ⟨⟨fun h => absurd rfl h, fun _ => rfl⟩, hmsg, b, htake⟩
  refine Triple.and fun hmsg => ?_
  rw [if_neg (not_not.mpr hmsg.1)]
  obtain hcmd | hcmd := hmsg.2
  · rw [if_pos hcmd, charOf, if_pos ⟨hmsg.1, hcmd⟩]
    refine Triple.write_ret (CoupledBuf.stable hm) (CoupledBuf.stable hm) ?_
    rintro s ⟨b, hs⟩
    have hkeep := hs.keep hone
    rw [hst] at hkeep
    exact ⟨.same rfl rfl, _, hkeep⟩
  · rw [if_neg (by rw [hcmd]; decide), if_pos hcmd, charOf,
      if_neg (by rw [hcmd]; exact fun h => absurd h.2 (by decide))]
    refine Triple.ret (CoupledBuf.stable hm) fun s hs => ?_
    rwa [Option.toList_none, hst] at hs

/-! ## `__set_tohost` -/

theorem coupled_iff (hns : st.sent = false) :
    Coupled serve magic st x v s ↔ HtifLink magic st x v s :=
  or_iff_left fun h => absurd (h.1.symm.trans hns) (by decide)

theorem HtifLink.stable (hm : magic.toNat < 2 ^ 48) (hns : st.sent = false) :
    Stable (HostStep serve) (HtifLink magic st x v) := fun s t hs hstep =>
  (hs.host hm hstep).resolve_right fun h => absurd (h.1.symm.trans hns) (by decide)

/-- The link, with any value of `htif_console_buf`. -/
def HtifLinkBuf (magic : Word) (st : Stage) (x : HtifVars) (v : HtifView W) (s : Htif W) : Prop :=
  ∃ b, HtifLink magic st (x.buf b) v s

theorem HtifLinkBuf.stable (hm : magic.toNat < 2 ^ 48) (hns : st.sent = false) :
    Stable (HostStep serve) (HtifLinkBuf magic st x v) :=
  Stable.exists fun _ => HtifLink.stable hm hns

/-- The host can take what is in `tohost`. -/
theorem HtifLink.drain (serve : W → List Word → Word × W) (h : HtifLink magic st x v s)
    (hns : st.sent = false) :
    ∃ u, ReflTransGen (HostStep serve) s u ∧ u.tohost = 0 := by
  have hcommand := h.command
  rw [hns] at hcommand
  obtain h0 | ⟨hdev, hcmd | hcmd⟩ := hcommand
  · exact ⟨s, .refl, h0⟩
  · exact ⟨_, .single (.getchar hdev hcmd), rfl⟩
  · exact ⟨_, .single (.putchar hdev hcmd false), rfl⟩

theorem tohost_stable : Stable (HostStep serve) fun s => s.tohost = 0 :=
  fun _ _ hs hstep => hstep.tohost hs

theorem setTohostRound_exec (h : s.tohost = 0) :
    (Htif.setTohostRound : Htif.Target W Bool).exec s = some (false, s) := by
  show (if s.tohost = 0 then _ else _ : Htif.Target W Bool).exec s = _
  rw [if_pos h]
  rfl

section SetTohost

variable (hm : magic.toNat < 2 ^ 48) (hns : st.sent = false) (howed : st.owed = 0)
  (hhand : st.hand = []) (hone : st.requests ≤ 1)
include hm hns howed hhand hone

theorem waitTohost_spec : Triple (HostStep serve) Disciplined (CoupledBuf serve magic st x v)
    (Code.loop Htif.setTohostRound) fun _ s => CoupledBuf serve magic st x v s ∧ s.tohost = 0 := by
  refine Triple.loop (fun _ => 0) Disciplined.refl (CoupledBuf.stable hm) ?_ ?_
  · refine Triple.read (fun c s => CoupledBuf serve magic st x v s ∧ (c = 0 → s.tohost = 0))
      (CoupledBuf.stable hm) Disciplined.refl (fun s hs => ⟨hs, id⟩) fun c => ?_
    by_cases h0 : c = 0
    · rw [if_pos h0]
      refine Triple.pre (Triple.ret ((CoupledBuf.stable hm).and tohost_stable) fun s hs => hs)
        fun s hs => ⟨hs.1, hs.2 h0⟩
    · rw [if_neg h0]
      refine Triple.pre (Triple.bind (checkFromhost_spec hm hhand hone) fun _ =>
        Triple.ret (CoupledBuf.stable hm) fun s hs => hs) fun s hs => ⟨hs.1, .inl ⟨hns, howed⟩⟩
  · rintro s ⟨b, hs⟩
    obtain ⟨u, hrun, h0⟩ := ((coupled_iff hns).mp hs).drain serve hns
    exact ⟨u, false, u, hrun, setTohostRound_exec h0, fun h => by cases h⟩

/-- `__set_tohost` with the link behind the command. -/
theorem setTohost_spec {dev cmd data : Word} {R : Htif W → Prop} (hR : Stable (HostStep serve) R)
    (hsend : ∀ b s, HtifLink magic st (x.buf b) v s → s.tohost = 0 →
      R { s with tohost := tohostCmd dev cmd data }) :
    Triple (HostStep serve) Disciplined (CoupledBuf serve magic st x v)
      (Htif.setTohost dev cmd data) fun _ => R := by
  refine Triple.bind (waitTohost_spec hm hns howed hhand hone) fun _ => ?_
  refine Triple.write_ret ((CoupledBuf.stable hm).and tohost_stable) hR ?_
  rintro s ⟨⟨b, hs⟩, h0⟩
  exact ⟨⟨fun _ => h0, fun h => absurd rfl h⟩, hsend b s ((coupled_iff hns).mp hs) h0⟩

end SetTohost

/-! ## The loop of `do_tohost_fromhost` -/

/-- What is left before the reply arrives. -/
def pending (s : Htif W) : ℕ := s.inflight.length + if s.tohost = 0 then 0 else 1

theorem checkFromhost_exec (h0 : s.fromhost ≠ 0) (hmsg : ConsoleMsg s.fromhost) :
    ∃ t, (Htif.checkFromhost : Htif.Target W Unit).exec s = some ((), t) ∧
      t.inflight.length < s.inflight.length ∧ t.tohost = s.tohost := by
  have hlen : ({ s with fromhost := 0 } : Htif W).inflight.length < s.inflight.length := by
    rw [Htif.inflight_take h0]
    exact Nat.lt_succ_self _
  have hexec : ∀ t y, (if fromhostDev s.fromhost ≠ 1 then .fail (.assertion "FROMHOST_DEV(fh) == 1")
      else if fromhostCmd s.fromhost = 0 then Htif.setVars fun x => { x with
        htifConsoleBuf := 1 + ((fromhostData s.fromhost).setWidth 8).toNat }
      else if fromhostCmd s.fromhost = 1 then return
      else .fail (.assertion "0") : Htif.Target W Unit).exec { s with fromhost := 0 } =
        some (y, t) →
      (Htif.checkFromhost : Htif.Target W Unit).exec s = some (y, t) := by
    intro t y h
    show (if s.fromhost = 0 then _ else _ : Htif.Target W Unit).exec s = _
    rw [if_neg h0]
    exact h
  rw [if_neg (not_not.mpr hmsg.1)] at hexec
  obtain hcmd | hcmd := hmsg.2
  · rw [if_pos hcmd] at hexec
    exact ⟨_, hexec _ _ rfl, hlen, rfl⟩
  · rw [if_neg (by rw [hcmd]; decide), if_pos hcmd] at hexec
    exact ⟨_, hexec _ _ rfl, hlen, rfl⟩

/-- A round of the loop with a reply in `fromhost` takes it. -/
theorem fromhostRound_exec (h0 : s.fromhost ≠ 0) (hknown : KnownReply s.fromhost) :
    ∃ more t, (Htif.fromhostRound 0 0 : Htif.Target W Bool).exec s = some (more, t) ∧
      t.inflight.length < s.inflight.length ∧ t.tohost = s.tohost := by
  have hexec : (Htif.fromhostRound 0 0 : Htif.Target W Bool).exec s =
      (if fromhostDev s.fromhost = 0 ∧ fromhostCmd s.fromhost = 0 then do
        Code.write fun s => { s with fromhost := 0 }
        return false
      else do
        Htif.checkFromhost
        return true : Htif.Target W Bool).exec s := by
    show (if s.fromhost = 0 then _ else _ : Htif.Target W Bool).exec s = _
    rw [if_neg h0]
  obtain ⟨-, hsys | hmsg⟩ := hknown
  · refine ⟨false, { s with fromhost := 0 }, ?_, ?_, rfl⟩
    · rw [hexec, if_pos hsys]
      rfl
    · rw [Htif.inflight_take h0]
      exact Nat.lt_succ_self _
  · obtain ⟨t, hcheck, hlen, hto⟩ := checkFromhost_exec h0 hmsg
    refine ⟨true, t, ?_, hlen, hto⟩
    rw [hexec, if_neg (by rw [hmsg.1]; exact fun h => absurd h.1 (by decide)), Code.exec_bind,
      hcheck]
    rfl

/-- The host can write a reply that is on its way. -/
theorem HtifLink.arrive (serve : W → List Word → Word × W) (h : HtifLink magic st x v s)
    (hne : s.inflight ≠ []) :
    ∃ u, ReflTransGen (HostStep serve) s u ∧ u.fromhost ≠ 0 ∧ KnownReply u.fromhost ∧
      u.inflight = s.inflight ∧ u.tohost = s.tohost := by
  by_cases h0 : s.fromhost = 0
  · cases hr : s.host.replies with
    | nil => exact absurd (by simp [Htif.inflight, h0, hr]) hne
    | cons reply replies =>
      have hknown := h.known reply (by simp [Htif.inflight, hr])
      exact ⟨_, .single (.deliver h0 hr), hknown.1, hknown,
        Htif.inflight_deliver h0 hr hknown.1, rfl⟩
  · exact ⟨s, .refl, h0, h.fromhost_known h0, rfl, rfl⟩

theorem HtifLink.inflight_ne_nil (h : HtifLink magic st x v s) (howed : 0 < st.owed) :
    s.inflight ≠ [] := by
  intro hnil
  have := h.owed
  rw [hnil, List.countP_nil] at this
  omega

/-- The host can serve the system call, if it has not done so, and write its next reply. -/
theorem Coupled.progress (h : Coupled serve magic st x v s) (hm : magic.toNat < 2 ^ 48)
    (h0 : magic ≠ 0) (hsent : st.sent = true) :
    ∃ u, ReflTransGen (HostStep serve) s u ∧ u.fromhost ≠ 0 ∧ KnownReply u.fromhost ∧
      pending u ≤ pending s := by
  obtain h | ⟨-, h⟩ := h
  · have hto := h.command
    rw [if_pos hsent] at hto
    have hne : s.tohost ≠ 0 := fun hzero => h0 (by
      rw [← fromhostData_tohostCmd (d := 0) (c := 0) (by decide) (by decide) hm, ← hto, hzero]
      decide)
    have hstep : HostStep serve s (s.takeSyscall serve) := .syscall hne
      (by rw [hto]; exact fromhostDev_syscall hm)
      (by rw [hto]; exact fromhostCmd_tohostCmd (by decide) (by decide) hm)
    have hin : (s.takeSyscall serve).inflight = s.inflight ++ [syscallReply] :=
      Htif.inflight_append rfl rfl
    obtain hlink | ⟨-, hlink⟩ := h.host hm hstep
    · have hzero := hlink.command
      rw [if_pos hsent] at hzero
      exact absurd (hto.trans hzero.symm) hne
    obtain ⟨u, hrun, hf, hknown, hsame, hto'⟩ := hlink.arrive serve (by simp [hin])
    refine ⟨u, .head hstep hrun, hf, hknown, ?_⟩
    rw [pending, pending, hsame, hin, hto', if_neg hne, List.length_append]
    rfl
  · obtain ⟨u, hrun, hf, hknown, hsame, hto⟩ :=
      h.arrive serve (h.inflight_ne_nil (Nat.succ_pos _))
    exact ⟨u, hrun, hf, hknown, by rw [pending, pending, hsame, hto]⟩

/-- The link when the reply to the system call has been taken. -/
def SyscallDone (serve : W → List Word → Word × W) (magic : Word) (st : Stage) (x : HtifVars)
    (v : HtifView W) (s : Htif W) : Prop :=
  ∃ b, HtifLink magic { st with sent := false }
    ((x.buf b).store magic (serve v.world (loadWords x.mem 8 magic)).1)
    (v.call serve (loadWords x.mem 8 magic)) s

theorem waitFromhost_spec (hm : magic.toNat < 2 ^ 48) (h0 : magic ≠ 0) (hsent : st.sent = true)
    (howed : st.owed = 0) (hhand : st.hand = []) (hone : st.requests ≤ 1) :
    Triple (HostStep serve) Disciplined (CoupledBuf serve magic st x v)
      (Code.loop (Htif.fromhostRound 0 0)) fun _ => SyscallDone serve magic st x v := by
  have hanswered : Stable (HostStep serve) (SyscallDone serve magic st x v) :=
    Stable.exists fun _ => HtifLink.stable hm rfl
  refine Triple.loop pending Disciplined.refl (CoupledBuf.stable hm) ?_ ?_
  · refine Triple.read (fun fh s => CoupledBuf serve magic st x v s ∧ (fh ≠ 0 → s.fromhost = fh))
      (CoupledBuf.stable hm) Disciplined.refl (fun s hs => ⟨hs, fun _ => rfl⟩) fun fh => ?_
    by_cases hfh : fh = 0
    · rw [if_pos hfh]
      exact Triple.pre (Triple.ret (CoupledBuf.stable hm) fun s hs => hs) fun s hs => hs.1
    have hstable : Stable (HostStep serve) fun s => CoupledBuf serve magic st x v s ∧
        (fh ≠ 0 → s.fromhost = fh) := by
      intro s t hs hstep
      refine ⟨CoupledBuf.stable hm _ _ hs.1 hstep, fun _ => ?_⟩
      rw [hstep.fromhost (by rw [hs.2 hfh]; exact hfh), hs.2 hfh]
    rw [if_neg hfh]
    by_cases hsys : fromhostDev fh = 0 ∧ fromhostCmd fh = 0
    · rw [if_pos hsys]
      refine Triple.write (SyscallDone serve magic st x v) hstable ?_
        (Triple.ret hanswered fun s hs => hs)
      rintro s ⟨⟨b, hs⟩, hfrom⟩
      obtain rfl := hfrom hfh
      refine ⟨⟨fun h => absurd rfl h, fun _ => rfl⟩, b, ?_⟩
      obtain hs | ⟨-, hs⟩ := hs
      · exact absurd howed (hs.owed_pos hfh hsys.1).ne'
      · have htake := hs.take hfh
        rw [if_pos hsys.1] at htake
        have hchar : charOf s.fromhost = none :=
          if_neg (by rw [hsys.1]; exact fun h => absurd h.1 (by decide))
        simpa [hchar] using htake
    · rw [if_neg hsys]
      refine Triple.pre (Triple.bind (checkFromhost_spec hm hhand hone) fun _ =>
        Triple.ret (CoupledBuf.stable hm) fun s hs => hs) fun s hs => ⟨hs.1, .inr ?_⟩
      rw [hs.2 hfh]
      refine ⟨hfh, ?_⟩
      obtain ⟨b, hb⟩ := hs.1
      have hknown : KnownReply s.fromhost := by
        rw [← hs.2 hfh] at hfh
        exact hb.elim (fun h => h.fromhost_known hfh) fun h => h.2.fromhost_known hfh
      rw [hs.2 hfh] at hknown
      exact (hknown.2.resolve_left hsys).1
  · rintro s ⟨b, hs⟩
    obtain ⟨u, hrun, hf, hknown, hless⟩ := hs.progress hm h0 hsent
    obtain ⟨more, t, hexec, hlen, hto⟩ := fromhostRound_exec hf hknown
    refine ⟨u, more, t, hrun, hexec, fun _ => ?_⟩
    refine lt_of_lt_of_le ?_ hless
    rw [pending, pending, hto]
    omega

/-! ## The locks -/

/-- `x` with another value of a lock. -/
def HtifVars.setLock (x : HtifVars) (l : Spinlock) (n : ℤ) : HtifVars :=
  { x with spin := Function.update x.spin l n }

theorem setLock_spec (hm : magic.toNat < 2 ^ 48) (hns : st.sent = false) (l : Spinlock) (n : ℤ) :
    Triple (HostStep serve) Disciplined (HtifLink magic st x v) (Htif.setLock l n)
      fun _ => HtifLink magic st (x.setLock l n) v :=
  Triple.write_ret (HtifLink.stable hm hns) (HtifLink.stable hm hns) fun _ hs =>
    ⟨.same rfl rfl, hs.setVars (fun x => x.setLock l n) rfl⟩

/-- A free lock is taken: nobody else takes it. -/
theorem spinlockLock_spec (hm : magic.toNat < 2 ^ 48) (hns : st.sent = false) {l : Spinlock}
    (hfree : x.spin l = 0) :
    Triple (HostStep serve) Disciplined (HtifLink magic st x v) (Htif.spinlockLock l)
      fun _ => HtifLink magic st (x.setLock l (-1)) v := by
  have hstable : Stable (HostStep serve) (HtifLink magic st x v) := HtifLink.stable hm hns
  have hread : ∀ s, HtifLink magic st x v s → s.vars.spin l = 0 :=
    fun s hs => by rw [hs.vars, hfree]
  have hexec : ∀ s, HtifLink magic st x v s → (do
      let c ← Code.read fun s => s.vars.spin l
      return decide (c ≠ 0) : Htif.Target W Bool).exec s = some (false, s) := fun s hs => by
    show some (decide (s.vars.spin l ≠ 0), s) = _
    rw [hread s hs]
    rfl
  refine Triple.loop (fun _ => 0) Disciplined.refl hstable ?_ ?_
  · refine Triple.bind (R := fun _ => HtifLink magic st x v) (Triple.loop (fun _ => 0)
      Disciplined.refl hstable ?_ ?_) fun _ => ?_
    · refine Triple.read (fun c s => c = 0 ∧ HtifLink magic st x v s) hstable Disciplined.refl
        (fun s hs => ⟨hread s hs, hs⟩) fun c => Triple.and fun hc => ?_
      subst hc
      exact Triple.ret hstable fun s hs => hs
    · exact fun s hs => ⟨s, false, s, .refl, hexec s hs, fun h => by cases h⟩
    · refine Triple.bind (R := fun c s => c = 0 ∧ HtifLink magic st (x.setLock l (-1)) v s) ?_
        fun c => Triple.and fun hc => ?_
      · refine Triple.read (fun c s => c = 0 ∧ HtifLink magic st x v s) hstable Disciplined.refl
          (fun s hs => ⟨hread s hs, hs⟩) fun c => Triple.and fun hc => ?_
        refine Triple.bind (setLock_spec hm hns l (-1)) fun _ => ?_
        exact Triple.ret (HtifLink.stable hm hns) fun s hs => ⟨hc, hs⟩
      · subst hc
        exact Triple.ret (HtifLink.stable hm hns) fun s hs => hs
  · intro s hs
    refine ⟨s, false, { s with vars := s.vars.setLock l (-1) }, .refl, ?_, fun h => by cases h⟩
    rw [Code.exec_bind, Code.exec_loop (hexec s hs)]
    show some (decide (s.vars.spin l ≠ 0), _) = _
    rw [hread s hs]
    rfl

theorem HtifVars.setLock_release {l : Spinlock} (hfree : x.spin l = 0) (b : ℤ) (a w : Word) :
    (((x.setLock l (-1)).buf b).store a w).setLock l 0 = (x.buf b).store a w := by
  obtain ⟨buf, spin, mem⟩ := x
  simp only [setLock, HtifVars.buf, store, Function.update_idem, HtifVars.mk.injEq,
    true_and, and_true]
  rw [← hfree]
  exact Function.update_eq_self l spin

/-! ## `frontend_syscall` -/

/-- Memory with words stored from an address on. -/
def writeWords (mem : Word → Word) : Word → List Word → Word → Word
  | _, [] => mem
  | a, w :: ws => writeWords (Function.update mem a w) (a + 8) ws

theorem writeWords_of_ne {mem : Word → Word} {ws : List Word} {a c : Word}
    (h : ∀ k < ws.length, c ≠ a + BitVec.ofNat 64 (8 * k)) : writeWords mem a ws c = mem c := by
  induction ws generalizing mem a with
  | nil => rfl
  | cons w ws ih =>
    rw [writeWords, ih, Function.update_of_ne]
    · simpa using h 0 (Nat.succ_pos _)
    · intro k hk heq
      refine h (k + 1) (Nat.succ_lt_succ hk) (heq.trans ?_)
      rw [Nat.mul_succ, Nat.add_comm (8 * k) 8, BitVec.ofNat_add, ← BitVec.add_assoc]
      rfl

theorem loadWords_writeWords {ws : List Word} (h : ws.length < 2 ^ 61) (mem : Word → Word)
    (a : Word) : loadWords (writeWords mem a ws) ws.length a = ws := by
  induction ws generalizing mem a with
  | nil => rfl
  | cons w ws ih =>
    rw [List.length_cons] at h
    rw [List.length_cons, loadWords, writeWords, ih (by omega), writeWords_of_ne,
      Function.update_self]
    intro k hk heq
    have hN := congrArg BitVec.toNat heq
    rw [BitVec.toNat_add, BitVec.toNat_add, BitVec.toNat_ofNat,
      show (8 : Word).toNat = 8 from rfl] at hN
    omega

theorem storeWords_spec (hm : magic.toNat < 2 ^ 48) (hns : st.sent = false) (ws : List Word)
    (a : Word) :
    Triple (HostStep serve) Disciplined (HtifLink magic st x v) (Htif.storeWords a ws)
      fun _ => HtifLink magic st { x with mem := writeWords x.mem a ws } v := by
  induction ws generalizing a x with
  | nil => exact Triple.ret (HtifLink.stable hm hns) fun s hs => hs
  | cons w ws ih =>
    refine Triple.write (HtifLink magic st (x.store a w) v) (HtifLink.stable hm hns)
      (fun s hs => ?_) (ih (a + 8))
    exact ⟨.same rfl rfl, hs.setVars (HtifVars.store a w) rfl⟩

theorem doTohostFromhost_spec (hm : magic.toNat < 2 ^ 48) (h0 : magic ≠ 0)
    (hfree : x.spin .htifLock = 0) :
    Triple (HostStep serve) Disciplined (HtifLink magic .calm x v) (Htif.doTohostFromhost 0 0 magic)
      fun _ => SyscallDone serve magic .calm x v := by
  refine Triple.bind (spinlockLock_spec hm rfl hfree) fun _ => ?_
  refine Triple.bind (R := fun _ => CoupledBuf serve magic { Stage.calm with sent := true }
    (x.setLock .htifLock (-1)) v) ?_ fun _ => ?_
  · refine Triple.pre (setTohost_spec hm rfl rfl rfl le_rfl (CoupledBuf.stable hm)
      fun b s hs hto => ?_) fun s hs => .of_link hs
    exact ⟨b, .inl (hs.send_syscall hto hm)⟩
  refine Triple.bind (waitFromhost_spec hm h0 rfl rfl rfl le_rfl) fun _ => ?_
  refine Triple.exists fun b => Triple.post (setLock_spec hm rfl _ _) fun _ s hs => ⟨b, ?_⟩
  rwa [HtifVars.setLock_release hfree] at hs

/-- Between the calls: the locks are free, and kernel and host agree. -/
def HtifReady (magic : Word) (v : HtifView W) (s : Htif W) : Prop :=
  ∃ x, x.spin = (fun _ => 0) ∧ HtifLink magic .calm x v s

theorem HtifReady.stable (hm : magic.toNat < 2 ^ 48) :
    Stable (HostStep serve) (HtifReady magic v) :=
  Stable.exists fun _ s t hs hstep => ⟨hs.1, HtifLink.stable hm rfl s t hs.2 hstep⟩

/-- **A system call is one step of the host.** -/
theorem frontendSyscall_spec (hm : magic.toNat < 2 ^ 48) (h0 : magic ≠ 0) (args : Fin 8 → Word) :
    Triple (HostStep serve) Disciplined (HtifReady magic v) (Htif.frontendSyscall magic args)
      fun r s => r = (serve v.world (List.ofFn args)).1 ∧
        HtifReady magic (v.call serve (List.ofFn args)) s := by
  refine Triple.exists fun x => Triple.and fun hfree => ?_
  refine Triple.bind (spinlockLock_spec hm rfl (by rw [hfree])) fun _ => ?_
  refine Triple.bind (storeWords_spec hm rfl _ _) fun _ => ?_
  refine Triple.bind (doTohostFromhost_spec hm h0 ?_) fun _ => Triple.exists fun b => ?_
  · simp [HtifVars.setLock, hfree]
  have hargs : loadWords (writeWords (x.setLock .lock (-1)).mem magic (List.ofFn args)) 8 magic =
      List.ofFn args := by
    have hload := loadWords_writeWords (show (List.ofFn args).length < 2 ^ 61 by simp) x.mem magic
    rwa [List.length_ofFn] at hload
  simp only [hargs]
  refine Triple.read (fun r s => r = (serve v.world (List.ofFn args)).1 ∧ _)
    (HtifLink.stable hm rfl) Disciplined.refl (fun s hs => ⟨?_, hs⟩) fun r =>
    Triple.and fun hr => ?_
  · rw [hs.vars]
    exact Function.update_self _ _ _
  refine Triple.bind (setLock_spec hm rfl .lock 0) fun _ =>
    Triple.ret (HtifLink.stable hm rfl) fun s hs => ⟨hr, _, funext fun l => ?_, hs⟩
  cases l <;> simp [HtifVars.setLock, HtifVars.store, HtifVars.buf, hfree]

/-! ## The console -/

/-- The end of a function that holds `htif_lock`. -/
theorem unlock_spec (hm : magic.toNat < 2 ^ 48) (hfree : x.spin = fun _ => 0) (b : ℤ) :
    Triple (HostStep serve) Disciplined (HtifLink magic .calm ((x.setLock .htifLock (-1)).buf b) v)
      (Htif.spinlockUnlock .htifLock) fun _ => HtifReady magic v := by
  refine Triple.post (setLock_spec hm rfl .htifLock 0) fun _ s hs => ⟨_, funext fun l => ?_, hs⟩
  cases l <;> simp [HtifVars.setLock, HtifVars.buf, hfree]

theorem htifConsolePutchar_spec (hm : magic.toNat < 2 ^ 48) (ch : BitVec 8) :
    Triple (HostStep serve) Disciplined (HtifReady magic v) (Htif.htifConsolePutchar ch)
      fun _ => HtifReady magic { v with shown := v.shown ++ [ch] } := by
  refine Triple.exists fun x => Triple.and fun hfree => ?_
  refine Triple.bind (spinlockLock_spec hm rfl (by rw [hfree])) fun _ => ?_
  refine Triple.bind (Triple.pre (setTohost_spec hm rfl rfl rfl le_rfl (HtifLinkBuf.stable hm rfl)
    fun b s hs hto => ⟨b, hs.send_putchar hto rfl ch⟩) fun s hs => .of_link hs)
    fun _ => Triple.exists fun b => unlock_spec hm hfree b

/-- What a call of `htif_console_getchar` may return: -1 for the first call, then -2 if there is
    no character, or the next character. -/
def HtifView.Getchar (v : HtifView W) (r : ℤ) (v' : HtifView W) : Prop :=
  (v.asked = false ∧ r = -1 ∧ v' = { v with asked := true }) ∨
    v.asked = true ∧ (r = -2 ∧ v' = v ∨
      ∃ ch : BitVec 8, r = ch.toNat ∧ v' = { v with received := v.received ++ [ch] })

/-- The kernel takes the character out of `htif_console_buf`. -/
theorem HtifLink.receive (h : HtifLink magic .calm x v s) (hbuf : 0 ≤ x.htifConsoleBuf) :
    HtifLink magic { Stage.calm with requests := 0 } (x.buf (-1))
      { v with asked := true, received := v.received ++ bufChars x.htifConsoleBuf }
      { s with vars := { s.vars with htifConsoleBuf := -1 } } := by
  have htyped := h.typed
  have hrequests := h.requests
  rw [if_pos hbuf] at hrequests
  refine ⟨by rw [h.vars]; rfl, h.world, h.served, h.command, h.known, h.owed, h.shown, ?_, ?_, rfl,
    show (-1 : ℤ) ≤ -1 ∧ (-1 : ℤ) ≤ 256 by decide⟩
  · rw [← htyped, List.append_assoc]
    rfl
  · exact Nat.succ.inj hrequests

theorem HtifView.getchar_of_buf {b : ℤ} (hasked : v.asked = decide (b ≠ 0)) (h0 : 0 ≤ b)
    (hb : b ≤ 256) :
    v.Getchar (b - 1) { v with asked := true, received := v.received ++ bufChars b } := by
  obtain rfl | hpos := h0.eq_or_lt
  · refine .inl ⟨hasked, rfl, ?_⟩
    rw [bufChars, if_neg (lt_irrefl 0), List.append_nil]
  · have htrue : v.asked = true := hasked.trans (decide_eq_true hpos.ne')
    refine .inr ⟨htrue, .inr ⟨BitVec.ofInt 8 (b - 1), ?_, ?_⟩⟩
    · rw [BitVec.toNat_ofInt]
      omega
    · rw [bufChars, if_pos hpos, ← htrue]

theorem htifConsoleGetchar_spec (hm : magic.toNat < 2 ^ 48) :
    Triple (HostStep serve) Disciplined (HtifReady magic v) Htif.htifConsoleGetchar
      fun r s => ∃ v', v.Getchar r v' ∧ HtifReady magic v' s := by
  refine Triple.exists fun x => Triple.and fun hfree => ?_
  refine Triple.bind (spinlockLock_spec hm rfl (by rw [hfree])) fun _ => ?_
  refine Triple.bind (Triple.pre (checkFromhost_spec hm rfl le_rfl)
    fun s hs => ⟨.of_link hs, .inl ⟨rfl, rfl⟩⟩) fun _ => Triple.exists fun b => ?_
  refine Triple.pre (Triple.and fun hbuf => ?_) fun s hs =>
    have hlink := (coupled_iff rfl).mp hs
    (⟨⟨hlink.asked, hlink.range⟩, hlink⟩ : (v.asked = decide (b ≠ 0) ∧ -1 ≤ b ∧ b ≤ 256) ∧
      HtifLink magic .calm ((x.setLock .htifLock (-1)).buf b) v s)
  obtain ⟨hasked, hlow, hhigh⟩ := hbuf
  refine Triple.read
    (fun c s => c = b ∧ HtifLink magic .calm ((x.setLock .htifLock (-1)).buf b) v s)
    (HtifLink.stable hm rfl) Disciplined.refl (fun s hs => ⟨by rw [hs.vars]; rfl, hs⟩) fun c =>
    Triple.and fun hc => ?_
  subst hc
  by_cases h0 : 0 ≤ c
  · rw [if_pos h0]
    have hget := HtifView.getchar_of_buf hasked h0 hhigh
    refine Triple.write _ (HtifLink.stable hm rfl) (fun s hs => ⟨.same rfl rfl, hs.receive h0⟩) ?_
    refine Triple.bind (Triple.pre (setTohost_spec hm rfl rfl rfl (Nat.zero_le _)
      (HtifLinkBuf.stable hm rfl) fun b s hs hto => ⟨b, hs.send_getchar hto rfl⟩)
      fun s hs => .of_link hs) fun _ => Triple.exists fun b => ?_
    refine Triple.bind (unlock_spec hm hfree b) fun _ =>
      Triple.ret (HtifReady.stable hm) fun s hs => ⟨_, hget, hs⟩
  · rw [if_neg h0]
    obtain rfl : c = -1 := by omega
    refine Triple.bind (unlock_spec hm hfree _) fun _ =>
      Triple.ret (HtifReady.stable hm) fun s hs => ⟨v, .inr ⟨hasked, .inl ⟨rfl, rfl⟩⟩, hs⟩

end Pke
