import Pke.Spike.Htif

/-!
# The handshake with the host

`HtifLink` relates kernel and host at any moment between two accesses: what the calls so far have
done (`HtifView`) is what the host has done, shown and typed, up to what is on its way in `tohost`,
in `fromhost`, among the replies of the host, in `htif_console_buf` or in the hands of the
kernel (`Stage`).

* `HtifLink.host`: a step of the host keeps the link, or it serves the system call that was sent;
* `HtifLink.take`, `HtifLink.keep`, `HtifLink.send`, `HtifLink.setVars`: what the accesses of the
  kernel do to it.
-/

namespace Pke

open Lib Relation
open Code (Stable Triple)

/-! ## Commands and replies -/

theorem tohostCmd_toNat {d c p : Word} (hd : d.toNat < 2 ^ 8) (hc : c.toNat < 2 ^ 8)
    (hp : p.toNat < 2 ^ 48) :
    (tohostCmd d c p).toNat = 2 ^ 56 * d.toNat + (2 ^ 48 * c.toNat + p.toNat) := by
  have hd' : (d <<< 56).toNat = 2 ^ 56 * d.toNat := by
    rw [BitVec.toNat_shiftLeft, Nat.shiftLeft_eq]
    omega
  have hc' : (c <<< 48).toNat = 2 ^ 48 * c.toNat := by
    rw [BitVec.toNat_shiftLeft, Nat.shiftLeft_eq]
    omega
  rw [tohostCmd, BitVec.or_assoc, BitVec.toNat_or, BitVec.toNat_or, hd', hc',
    ← Nat.two_pow_add_eq_or_of_lt hp, ← Nat.two_pow_add_eq_or_of_lt (by omega)]

section Fields

variable {d c p : Word} (hd : d.toNat < 2 ^ 8) (hc : c.toNat < 2 ^ 8) (hp : p.toNat < 2 ^ 48)
include hd hc hp

theorem fromhostDev_tohostCmd : fromhostDev (tohostCmd d c p) = d := by
  apply BitVec.eq_of_toNat_eq
  rw [fromhostDev, BitVec.toNat_ushiftRight, Nat.shiftRight_eq_div_pow, tohostCmd_toNat hd hc hp]
  omega

theorem fromhostCmd_tohostCmd : fromhostCmd (tohostCmd d c p) = c := by
  apply BitVec.eq_of_toNat_eq
  rw [fromhostCmd, BitVec.toNat_ushiftRight, Nat.shiftRight_eq_div_pow, BitVec.toNat_shiftLeft,
    Nat.shiftLeft_eq, tohostCmd_toNat hd hc hp]
  omega

theorem fromhostData_tohostCmd : fromhostData (tohostCmd d c p) = p := by
  apply BitVec.eq_of_toNat_eq
  rw [fromhostData, BitVec.toNat_ushiftRight, Nat.shiftRight_eq_div_pow, BitVec.toNat_shiftLeft,
    Nat.shiftLeft_eq, tohostCmd_toNat hd hc hp]
  omega

end Fields

variable {W : Type}

/-! ## What is on its way -/

namespace Htif

/-- The replies that the kernel has not taken, in their order. -/
def inflight (s : Htif W) : List Word :=
  (if s.fromhost = 0 then [] else [s.fromhost]) ++ s.host.replies

theorem inflight_append {s t : Htif W} {l : List Word} (hf : t.fromhost = s.fromhost)
    (hr : t.host.replies = s.host.replies ++ l) : t.inflight = s.inflight ++ l := by
  rw [inflight, inflight, hf, hr, List.append_assoc]

theorem inflight_deliver {s : Htif W} {reply : Word} {replies : List Word} (h : s.fromhost = 0)
    (hr : s.host.replies = reply :: replies) (hne : reply ≠ 0) :
    (s.deliver reply replies).inflight = s.inflight := by
  show (if reply = 0 then [] else [reply]) ++ replies = _
  rw [inflight, if_neg hne, if_pos h, hr]
  rfl

/-- The kernel takes the reply in `fromhost`. -/
theorem inflight_take {s : Htif W} (h : s.fromhost ≠ 0) :
    s.inflight = s.fromhost :: ({ s with fromhost := 0 } : Htif W).inflight := by
  show (if s.fromhost = 0 then [] else [s.fromhost]) ++ s.host.replies = _
  rw [if_neg h]
  rfl

end Htif

/-- The character in a reply of the console. -/
def charOf (m : Word) : Option (BitVec 8) :=
  if fromhostDev m = 1 ∧ fromhostCmd m = 0 then some ((fromhostData m).setWidth 8) else none

/-- The character that a command shows. -/
def outgoing (m : Word) : List (BitVec 8) :=
  if fromhostDev m = 1 ∧ fromhostCmd m = 1 then [(fromhostData m).setWidth 8] else []

/-- Whether a command asks for a character. -/
def asking (m : Word) : ℕ := if fromhostDev m = 1 ∧ fromhostCmd m = 0 then 1 else 0

/-- The character in `htif_console_buf`. -/
def bufChars (buf : ℤ) : List (BitVec 8) := if 0 < buf then [BitVec.ofInt 8 (buf - 1)] else []

/-- A command for the console, or a reply of it. -/
def ConsoleMsg (m : Word) : Prop :=
  fromhostDev m = 1 ∧ (fromhostCmd m = 0 ∨ fromhostCmd m = 1)

/-- A reply that a host gives. -/
def KnownReply (m : Word) : Prop :=
  m ≠ 0 ∧ (fromhostDev m = 0 ∧ fromhostCmd m = 0 ∨ ConsoleMsg m)

/-- What the calls so far have done, as the kernel sees it. -/
structure HtifView (W : Type) where
  world : W
  served : List (List Word × Word)
  shown : List (BitVec 8)
  received : List (BitVec 8)
  /-- The host was asked for a character before. -/
  asked : Bool

/-- A system call as one step. -/
def HtifView.call (serve : W → List Word → Word × W) (args : List Word) (v : HtifView W) :
    HtifView W :=
  { v with
    world := (serve v.world args).2
    served := v.served ++ [(args, (serve v.world args).1)] }

/-- Where the kernel is in a call: it has sent a system call; it is owed replies to system
    calls; it holds a character; how many requests for a character are open or answered. -/
structure Stage where
  sent : Bool
  owed : ℕ
  hand : List (BitVec 8)
  requests : ℕ

/-- The stage outside of the calls. -/
def Stage.calm : Stage := ⟨false, 0, [], 1⟩

/-- Kernel and host agree on what has happened. -/
structure HtifLink (magic : Word) (st : Stage) (x : HtifVars) (v : HtifView W) (s : Htif W) :
    Prop where
  vars : s.vars = x
  world : s.host.world = v.world
  served : s.host.served = v.served
  command : if st.sent then s.tohost = tohostCmd 0 0 magic
    else s.tohost = 0 ∨ ConsoleMsg s.tohost
  known : ∀ m ∈ s.inflight, KnownReply m
  owed : s.inflight.countP (fun m => fromhostDev m = 0) = st.owed
  shown : s.host.shown ++ outgoing s.tohost = v.shown
  typed : v.received ++ (bufChars x.htifConsoleBuf ++ (st.hand ++ s.inflight.filterMap charOf)) =
    s.host.typed
  requests : asking s.tohost + s.host.reads + (s.inflight.filterMap charOf).length +
    st.hand.length + (if 0 ≤ x.htifConsoleBuf then 1 else 0) = st.requests
  asked : v.asked = decide (x.htifConsoleBuf ≠ 0)
  range : -1 ≤ x.htifConsoleBuf ∧ x.htifConsoleBuf ≤ 256

section Host

variable {serve : W → List Word → Word × W} {magic : Word} {st : Stage} {x : HtifVars}
  {v : HtifView W} {s t : Htif W}

theorem fromhostDev_syscall (hm : magic.toNat < 2 ^ 48) :
    fromhostDev (tohostCmd 0 0 magic) = 0 :=
  fromhostDev_tohostCmd (by decide) (by decide) hm

theorem outgoing_eq_nil {m : Word} (h : fromhostDev m ≠ 1 ∨ fromhostCmd m ≠ 1) :
    outgoing m = [] := if_neg (not_and_or.mpr h)

theorem asking_eq_zero {m : Word} (h : fromhostDev m ≠ 1 ∨ fromhostCmd m ≠ 0) : asking m = 0 :=
  if_neg (not_and_or.mpr h)

theorem outgoing_zero : outgoing 0 = [] := outgoing_eq_nil (by decide)

theorem asking_zero : asking 0 = 0 := asking_eq_zero (by decide)

theorem getcharReply_fields (ch : BitVec 8) : fromhostDev (getcharReply ch) = 1 ∧
    fromhostCmd (getcharReply ch) = 0 ∧ (fromhostData (getcharReply ch)).setWidth 8 = ch := by
  have hp : (0x100 + ch.setWidth 64 : Word).toNat = 256 + ch.toNat := by
    rw [BitVec.toNat_add, BitVec.toNat_setWidth, show (0x100 : Word).toNat = 256 from rfl]
    omega
  have hlt : (0x100 + ch.setWidth 64 : Word).toNat < 2 ^ 48 := by omega
  refine ⟨fromhostDev_tohostCmd (by decide) (by decide) hlt,
    fromhostCmd_tohostCmd (by decide) (by decide) hlt, ?_⟩
  rw [getcharReply, fromhostData_tohostCmd (by decide) (by decide) hlt]
  apply BitVec.eq_of_toNat_eq
  rw [BitVec.toNat_setWidth, hp]
  omega

theorem ConsoleMsg.known {m : Word} (h : ConsoleMsg m) : KnownReply m := by
  refine ⟨?_, .inr h⟩
  rintro rfl
  exact absurd h.1 (by decide)

theorem HtifLink.not_sent (h : HtifLink magic st x v s) (hm : magic.toNat < 2 ^ 48)
    (hdev : fromhostDev s.tohost = 1) : st.sent = false := by
  by_contra hsent
  have hto := h.command
  rw [if_pos (by simpa using hsent)] at hto
  rw [hto, fromhostDev_syscall hm] at hdev
  exact absurd hdev (by decide)

theorem HtifLink.known_append (h : HtifLink magic st x v s) {l : List Word}
    (hin : t.inflight = s.inflight ++ l) (hl : ∀ m ∈ l, KnownReply m) :
    ∀ m ∈ t.inflight, KnownReply m := by
  intro m hmem
  rw [hin, List.mem_append] at hmem
  exact hmem.elim (h.known m) (hl m)

/-- **What a step of the host does to the link.** It keeps it, or it serves the system call. -/
theorem HtifLink.host (hm : magic.toNat < 2 ^ 48) (h : HtifLink magic st x v s)
    (hstep : HostStep serve s t) : HtifLink magic st x v t ∨
      st.sent = true ∧ HtifLink magic { st with sent := false, owed := st.owed + 1 }
        (x.store magic (serve v.world (loadWords x.mem 8 magic)).1)
        (v.call serve (loadWords x.mem 8 magic)) t := by
  have hshown := h.shown
  have hrequests := h.requests
  cases hstep with
  | syscall h0 hdev hcmd =>
    have hsent : st.sent = true := by
      by_contra hns
      have := h.command
      rw [if_neg hns] at this
      exact this.elim h0 fun hmsg => absurd (hdev.symm.trans hmsg.1) (by decide)
    have hdata : fromhostData s.tohost = magic := by
      have := h.command
      rw [if_pos hsent] at this
      rw [this]
      exact fromhostData_tohostCmd (by decide) (by decide) hm
    have hin : (s.takeSyscall serve).inflight = s.inflight ++ [syscallReply] :=
      Htif.inflight_append rfl rfl
    have hchars : (s.takeSyscall serve).inflight.filterMap charOf =
        s.inflight.filterMap charOf := by
      rw [hin, List.filterMap_append, show [syscallReply].filterMap charOf = [] by decide,
        List.append_nil]
    rw [outgoing_eq_nil (.inl (by rw [hdev]; decide)), ← outgoing_zero] at hshown
    rw [asking_eq_zero (.inl (by rw [hdev]; decide)), ← asking_zero] at hrequests
    refine .inr ⟨hsent, ?_, ?_, ?_, .inl rfl, h.known_append hin ?_, ?_, hshown, ?_, ?_, h.asked,
      h.range⟩
    · simp [Htif.takeSyscall, h.vars, h.world, hdata]
    · simp [Htif.takeSyscall, HtifView.call, h.vars, h.world, hdata]
    · simp [Htif.takeSyscall, HtifView.call, h.vars, h.world, h.served, hdata]
    · simp only [List.mem_singleton, forall_eq]
      exact ⟨by decide, .inl (by decide)⟩
    · rw [hin, List.countP_append, h.owed]
      rfl
    · rw [hchars]
      exact h.typed
    · rw [hchars]
      exact hrequests
  | putchar hdev hcmd answer =>
    have hin : (s.takePutchar answer).inflight =
        s.inflight ++ if answer then [putcharReply] else [] := Htif.inflight_append rfl rfl
    have hchars : (s.takePutchar answer).inflight.filterMap charOf =
        s.inflight.filterMap charOf := by
      rw [hin, List.filterMap_append]
      cases answer <;> simp [show charOf putcharReply = none by decide]
    rw [show outgoing s.tohost = [(fromhostData s.tohost).setWidth 8] by
      simp [outgoing, hdev, hcmd]] at hshown
    rw [asking_eq_zero (.inr (by rw [hcmd]; decide)), ← asking_zero] at hrequests
    refine .inl ⟨h.vars, h.world, h.served, ?_, h.known_append hin ?_, ?_, ?_, ?_, ?_, h.asked,
      h.range⟩
    · rw [h.not_sent hm hdev]
      exact .inl rfl
    · cases answer with
      | false => simp
      | true =>
        simp only [if_true, List.mem_singleton, forall_eq]
        exact ConsoleMsg.known ⟨by decide, .inr (by decide)⟩
    · rw [hin, List.countP_append, h.owed]
      cases answer <;> rfl
    · show (s.host.shown ++ _) ++ outgoing 0 = _
      rw [hshown, outgoing_zero, List.append_nil]
    · rw [hchars]
      exact h.typed
    · rw [hchars]
      exact hrequests
  | getchar hdev hcmd =>
    rw [outgoing_eq_nil (.inr (by rw [hcmd]; decide)), ← outgoing_zero] at hshown
    rw [show asking s.tohost = 1 by simp [asking, hdev, hcmd]] at hrequests
    refine .inl ⟨h.vars, h.world, h.served, ?_, h.known, h.owed, hshown, h.typed, ?_, h.asked,
      h.range⟩
    · rw [h.not_sent hm hdev]
      exact .inl rfl
    · show asking 0 + (s.host.reads + 1) + _ + _ + _ = _
      rw [asking_zero, zero_add, add_comm s.host.reads 1]
      exact hrequests
  | typed h0 ch =>
    have hin : (s.typeChar ch).inflight = s.inflight ++ [getcharReply ch] :=
      Htif.inflight_append rfl rfl
    obtain ⟨hdev, hcmd, hdata⟩ := getcharReply_fields ch
    have hchars : (s.typeChar ch).inflight.filterMap charOf =
        s.inflight.filterMap charOf ++ [ch] := by
      rw [hin, List.filterMap_append]
      simp [charOf, hdev, hcmd, hdata]
    refine .inl ⟨h.vars, h.world, h.served, h.command, h.known_append hin ?_, ?_, hshown, ?_, ?_,
      h.asked, h.range⟩
    · simp only [List.mem_singleton, forall_eq]
      exact ConsoleMsg.known ⟨hdev, .inl hcmd⟩
    · rw [hin, List.countP_append, h.owed]
      simp [hdev]
    · rw [hchars]
      show _ = s.host.typed ++ [ch]
      rw [← h.typed]
      simp only [List.append_assoc]
    · rw [hchars, List.length_append]
      show asking s.tohost + (s.host.reads - 1) + (_ + 1) + _ + _ = _
      omega
  | @deliver h0 reply replies hr =>
    have hne := (h.known reply (by simp [Htif.inflight, hr])).1
    have hin := Htif.inflight_deliver h0 hr hne
    exact .inl ⟨h.vars, h.world, h.served, h.command, hin ▸ h.known, hin ▸ h.owed, hshown,
      hin ▸ h.typed, hin ▸ hrequests, h.asked, h.range⟩

theorem HostStep.tohost (hstep : HostStep serve s t) (h : s.tohost = 0) : t.tohost = 0 := by
  cases hstep <;> first | rfl | exact h

theorem HostStep.fromhost (hstep : HostStep serve s t) (h : s.fromhost ≠ 0) :
    t.fromhost = s.fromhost := by
  cases hstep with
  | deliver h0 hr => exact absurd h0 h
  | _ => rfl

/-! ## What the kernel does to the link -/

/-- The link while the host may serve a system call at any moment. -/
def Coupled (serve : W → List Word → Word × W) (magic : Word) (st : Stage) (x : HtifVars)
    (v : HtifView W) (s : Htif W) : Prop :=
  HtifLink magic st x v s ∨ st.sent = true ∧
    HtifLink magic { st with sent := false, owed := st.owed + 1 }
      (x.store magic (serve v.world (loadWords x.mem 8 magic)).1)
      (v.call serve (loadWords x.mem 8 magic)) s

theorem Coupled.stable (hm : magic.toNat < 2 ^ 48) :
    Stable (HostStep serve) (Coupled serve magic st x v) := by
  rintro s t (h | ⟨hsent, h⟩) hstep
  · exact h.host hm hstep
  · obtain h | ⟨hns, -⟩ := h.host hm hstep
    · exact .inr ⟨hsent, h⟩
    · cases hns

theorem HtifLink.setVars (h : HtifLink magic st x v s) (f : HtifVars → HtifVars)
    (hf : (f x).htifConsoleBuf = x.htifConsoleBuf) :
    HtifLink magic st (f x) v { s with vars := f s.vars } := by
  refine ⟨congrArg f h.vars, h.world, h.served, h.command, h.known, h.owed, h.shown, ?_, ?_, ?_, ?_⟩
  all_goals rw [hf]
  exacts [h.typed, h.requests, h.asked, h.range]

/-- The kernel takes the reply in `fromhost`. -/
theorem HtifLink.take (h : HtifLink magic st x v s) (h0 : s.fromhost ≠ 0) :
    HtifLink magic { st with
      owed := st.owed - if fromhostDev s.fromhost = 0 then 1 else 0
      hand := st.hand ++ (charOf s.fromhost).toList } x v { s with fromhost := 0 } := by
  have hin := Htif.inflight_take h0
  have hchars : s.inflight.filterMap charOf = (charOf s.fromhost).toList ++
      ({ s with fromhost := 0 } : Htif W).inflight.filterMap charOf := by
    rw [hin, List.filterMap_cons]
    cases charOf s.fromhost <;> rfl
  have htyped := h.typed
  have hrequests := h.requests
  rw [hchars] at htyped hrequests
  refine ⟨h.vars, h.world, h.served, h.command, fun m hmem => h.known m ?_, ?_, h.shown, ?_, ?_,
    h.asked, h.range⟩
  · rw [hin]
    exact List.mem_cons_of_mem _ hmem
  · have howed := h.owed
    rw [hin, List.countP_cons] at howed
    simp only [decide_eq_true_eq] at howed
    simp only
    omega
  · rw [List.append_assoc]
    exact htyped
  · rw [← hrequests, List.length_append, List.length_append]
    show asking s.tohost + s.host.reads + _ + _ + _ = _
    omega

/-- The kernel puts the character it holds into `htif_console_buf`. -/
theorem HtifLink.keep {ch : BitVec 8} (h : HtifLink magic st x v s) (hhand : st.hand = [ch])
    (hone : st.requests ≤ 1) :
    HtifLink magic { st with hand := [] } { x with htifConsoleBuf := 1 + ch.toNat } v
      { s with vars := { s.vars with htifConsoleBuf := 1 + ch.toNat } } := by
  have htyped := h.typed
  have hrequests := h.requests
  have hrange := h.range
  have hneg : ¬ 0 ≤ x.htifConsoleBuf := fun hbuf => by
    rw [if_pos hbuf, hhand, List.length_singleton] at hrequests
    omega
  rw [bufChars, if_neg (by omega), hhand] at htyped
  rw [if_neg hneg, hhand] at hrequests
  refine ⟨by simp [h.vars], h.world, h.served, h.command, h.known, h.owed, h.shown, ?_, ?_, ?_, ?_⟩
  · rw [← htyped, bufChars, if_pos (by simp only; omega), add_sub_cancel_left,
      BitVec.ofInt_natCast, BitVec.ofNat_toNat, BitVec.setWidth_eq]
    rfl
  · rw [← hrequests, if_pos (by simp only; omega)]
    rfl
  · rw [h.asked]
    have h1 : (1 : ℤ) + ch.toNat ≠ 0 := by omega
    have h2 : x.htifConsoleBuf ≠ 0 := by omega
    simp only [h1, h2, ne_eq, not_false_eq_true]
  · have := ch.isLt
    simp only
    omega

/-- The kernel sends a command. -/
theorem HtifLink.send (h : HtifLink magic st x v s) (h0 : s.tohost = 0) (st' : Stage) (m : Word)
    (hcommand : if st'.sent then m = tohostCmd 0 0 magic else m = 0 ∨ ConsoleMsg m)
    (howed : st'.owed = st.owed) (hhand : st'.hand = st.hand)
    (hreq : st'.requests = asking m + st.requests) :
    HtifLink magic st' x { v with shown := v.shown ++ outgoing m } { s with tohost := m } := by
  have hshown := h.shown
  have hrequests := h.requests
  rw [h0, outgoing_zero, List.append_nil] at hshown
  rw [h0, asking_zero, zero_add] at hrequests
  refine ⟨h.vars, h.world, h.served, hcommand, h.known, howed ▸ h.owed, ?_, hhand ▸ h.typed, ?_,
    h.asked, h.range⟩
  · rw [← hshown]
  · rw [hreq, ← hrequests, hhand]
    simp only [add_assoc]
    rfl

/-- The kernel sends a system call. -/
theorem HtifLink.send_syscall (h : HtifLink magic st x v s) (h0 : s.tohost = 0)
    (hm : magic.toNat < 2 ^ 48) :
    HtifLink magic { st with sent := true } x v { s with tohost := tohostCmd 0 0 magic } := by
  have hdev := fromhostDev_syscall hm
  have hsend := h.send h0 { st with sent := true } (tohostCmd 0 0 magic) rfl rfl rfl
    (by rw [asking_eq_zero (.inl (by rw [hdev]; decide)), zero_add])
  rwa [outgoing_eq_nil (.inl (by rw [hdev]; decide)), List.append_nil] at hsend

/-- The kernel sends a character to be shown. -/
theorem HtifLink.send_putchar (h : HtifLink magic st x v s) (h0 : s.tohost = 0)
    (hns : st.sent = false) (ch : BitVec 8) :
    HtifLink magic st x { v with shown := v.shown ++ [ch] }
      { s with tohost := tohostCmd 1 1 (ch.setWidth 64) } := by
  have hp : (ch.setWidth 64 : Word).toNat < 2 ^ 48 := by
    rw [BitVec.toNat_setWidth]
    omega
  have hdev : fromhostDev (tohostCmd 1 1 (ch.setWidth 64)) = 1 :=
    fromhostDev_tohostCmd (by decide) (by decide) hp
  have hcmd : fromhostCmd (tohostCmd 1 1 (ch.setWidth 64)) = 1 :=
    fromhostCmd_tohostCmd (by decide) (by decide) hp
  have hout : outgoing (tohostCmd 1 1 (ch.setWidth 64)) = [ch] := by
    rw [outgoing, if_pos ⟨hdev, hcmd⟩, fromhostData_tohostCmd (by decide) (by decide) hp]
    simp
  have hsend := h.send h0 st (tohostCmd 1 1 (ch.setWidth 64))
    (by rw [hns]; exact .inr ⟨hdev, .inr hcmd⟩) rfl rfl
    (by rw [asking_eq_zero (.inr (by rw [hcmd]; decide)), zero_add])
  rwa [hout] at hsend

/-- The kernel asks for a character. -/
theorem HtifLink.send_getchar (h : HtifLink magic { st with requests := 0 } x v s)
    (h0 : s.tohost = 0) (hns : st.sent = false) :
    HtifLink magic { st with requests := 1 } x v { s with tohost := tohostCmd 1 0 0 } := by
  have hsend := h.send h0 { st with requests := 1 } (tohostCmd 1 0 0)
    (by simp only [hns]; exact .inr ⟨by decide, by decide⟩) rfl rfl
    (show 1 = asking (tohostCmd 1 0 0) + 0 by decide)
  rwa [show outgoing (tohostCmd 1 0 0) = [] by decide, List.append_nil] at hsend

end Host

end Pke
