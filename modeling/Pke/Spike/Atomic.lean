import Pke.Spike.Calls

/-!
# Calls to the host are atomic

`HtifClient.Atomic` runs a client against a host that does every call in one step. Whatever
client runs on the kernel, for every host that keeps to `HostStep`, and however the accesses of
the client interleave with the steps of the host:

* `htif_safe`: no assertion of `spike_htif.c` fails, the kernel never writes over a command that
  the host has not taken, and it only ever clears `fromhost`;
* `htif_atomic`: what the client computes, the system calls that the host serves, the characters
  that are shown and those that are received are those of an atomic run;
* `htif_completes`: from every state that can be reached the client can still be completed, by
  steps that `HostStep` allows.
-/

namespace Pke

open Lib Relation
open Code (Stable Triple Runs)

variable {W α : Type} {serve : W → List Word → Word × W} {magic : Word} {v : HtifView W}
  {s : Htif W}

/-- A client that makes its calls in one step each. -/
def HtifClient.Atomic (serve : W → List Word → Word × W) :
    HtifClient W α → HtifView W → α → HtifView W → Prop
  | done a, v, b, v' => b = a ∧ v' = v
  | syscall args k, v, b, v' => (k (serve v.world (List.ofFn args)).1).Atomic serve
      (v.call serve (List.ofFn args)) b v'
  | putchar ch k, v, b, v' => k.Atomic serve { v with shown := v.shown ++ [ch] } b v'
  | getchar k, v, b, v' => ∃ r w, v.Getchar r w ∧ (k r).Atomic serve w b v'
  | work f k, v, b, v' => (k (f v.world).1).Atomic serve { v with world := (f v.world).2 } b v'

/-- The client works on its part of the world. -/
theorem HtifLink.work {x : HtifVars} {st : Stage} (h : HtifLink magic st x v s) (w : W) :
    HtifLink magic st x { v with world := w } { s with host := { s.host with world := w } } :=
  ⟨h.vars, rfl, h.served, h.command, h.known, h.owed, h.shown, h.typed, h.requests, h.asked,
    h.range⟩

theorem HtifClient.code_spec (hm : magic.toNat < 2 ^ 48) (h0 : magic ≠ 0) (c : HtifClient W α)
    (v : HtifView W) :
    Triple (HostStep serve) Disciplined (HtifReady magic v) (c.code magic)
      fun a s => ∃ v', c.Atomic serve v a v' ∧ HtifReady magic v' s := by
  induction c generalizing v with
  | done a => exact Triple.ret (HtifReady.stable hm) fun s hs => ⟨v, ⟨rfl, rfl⟩, hs⟩
  | syscall args k ih =>
    exact Triple.bind (frontendSyscall_spec hm h0 args) fun r => Triple.and fun hr => hr ▸ ih _ _
  | putchar ch k ih => exact Triple.bind (htifConsolePutchar_spec hm ch) fun _ => ih _
  | getchar k ih =>
    refine Triple.bind (htifConsoleGetchar_spec hm) fun r => Triple.exists fun w =>
      Triple.and fun hw => ?_
    exact Triple.post (ih r w) fun a s ⟨v', hv', hs⟩ => ⟨v', ⟨r, w, hw, hv'⟩, hs⟩
  | work f k ih =>
    refine Triple.act (fun b s => b = (f v.world).1 ∧
      HtifReady magic { v with world := (f v.world).2 } s) (HtifReady.stable hm) ?_
      fun b => Triple.and fun hb => hb ▸ ih _ _
    rintro s ⟨x, hfree, hs⟩
    have hwork := hs.work (f v.world).2
    rw [← hs.world] at hwork ⊢
    exact ⟨.same rfl rfl, rfl, x, hfree, hwork⟩

/-- Before the first call. -/
def Htif.initial (w : W) (mem : Word → Word) : Htif W :=
  ⟨0, 0, ⟨0, fun _ => 0, mem⟩, ⟨w, [], 0, [], [], []⟩⟩

/-- Nothing was called yet. -/
def HtifView.initial (w : W) : HtifView W := ⟨w, [], [], [], false⟩

theorem htifReady_initial (w : W) (mem : Word → Word) :
    HtifReady magic (HtifView.initial w) (Htif.initial w mem) := by
  refine ⟨_, rfl, rfl, rfl, rfl, .inl rfl, fun m hm => absurd hm List.not_mem_nil, rfl, ?_, rfl, ?_,
    rfl, show (-1 : ℤ) ≤ 0 ∧ (0 : ℤ) ≤ 256 by decide⟩
  · show [] ++ outgoing 0 = []
    rw [outgoing_zero]
    rfl
  · show asking 0 + 0 + 0 + 0 + 1 = 1
    rw [asking_zero]

/-- At most one character is on its way to the kernel. -/
theorem HtifLink.typed_length {x : HtifVars} (h : HtifLink magic .calm x v s) :
    s.host.typed.length ≤ v.received.length + 1 := by
  have hrequests := h.requests
  have hbuf : (bufChars x.htifConsoleBuf).length ≤ if 0 ≤ x.htifConsoleBuf then 1 else 0 := by
    rw [bufChars]
    split_ifs with h1 h2
    · exact le_rfl
    · omega
    · exact Nat.zero_le _
    · exact le_rfl
  rw [← h.typed]
  simp only [Stage.calm, List.length_append, List.length_nil] at hrequests ⊢
  omega

/-- A client that puts a character and makes a system call. -/
def sampleClient : HtifClient Word Word := .putchar 65 (.syscall (fun _ => 5) .done)

/-- A host that adds the number of the call to its state. -/
def sampleServe (w : Word) (args : List Word) : Word × Word := (w + args.headD 0, w + 1)

/-- The character is put and not shown yet. -/
theorem sampleClient_run : ∃ s : Htif Word, s.tohost = tohostCmd 1 1 65 ∧
    Runs (HostStep sampleServe) (sampleClient.code 0x80000000, Htif.initial 7 fun _ => 0)
      ((HtifClient.syscall (fun _ => 5) .done).code 0x80000000, s) := by
  obtain ⟨t, hexec, hto⟩ : ∃ t, (Htif.htifConsolePutchar 65 : Htif.Target Word Unit).exec
      (Htif.initial 7 fun _ => 0) = some ((), t) ∧ t.tohost = tohostCmd 1 1 65 := ⟨_, rfl, rfl⟩
  have hrun : Runs (HostStep sampleServe) (Htif.htifConsolePutchar 65, Htif.initial 7 fun _ => 0)
      (.ret (), t) := Runs.of_exec hexec
  exact ⟨t, hto, hrun.bind _⟩

section Client

variable {host : Htif W → Htif W → Prop} (hhost : ∀ s t, host s t → HostStep serve s t)
  (hm : magic.toNat < 2 ^ 48) (h0 : magic ≠ 0) (c : HtifClient W α) (w : W) (mem : Word → Word)
include hhost hm h0

/-- **No interleaving goes wrong.** Whatever the client calls and whenever the host acts, no
    assertion fails, and a command is only written when the last one was taken. -/
theorem htif_safe {c' : Htif.Target W α}
    (hrun : Runs host (c.code magic, Htif.initial w mem) (c', s)) :
    (∀ e, c' ≠ .fail e) ∧ ∀ d t, c'.step s = some (d, t) → Disciplined s t := by
  have hfine := c.code_spec hm h0 (HtifView.initial w) _ (htifReady_initial w mem) _
    (hrun.mono hhost)
  exact ⟨hfine.noFail, fun d t hstep => hfine.keeps (d, t) hstep⟩

omit hhost hm h0 in
theorem htif_safe_sample : ∃ s : Htif Word, s.tohost = tohostCmd 1 1 65 ∧ ∀ d t,
    ((HtifClient.syscall (fun _ => 5) .done : HtifClient Word Word).code 0x80000000).step s =
      some (d, t) → Disciplined s t := by
  obtain ⟨s, hto, hrun⟩ := sampleClient_run
  exact ⟨s, hto, (htif_safe (fun _ _ h => h) (by decide) (by decide) _ _ _ hrun).2⟩

/-- **Calls are atomic.** When the client returns, its result is that of a run in which every
    call is one step; the host has served exactly the system calls of that run, with their
    results; what was shown, with the command that is still in `tohost`, is what the client put;
    and the client has received what was typed, except for at most one character. -/
theorem htif_atomic {a : α}
    (hrun : Runs host (c.code magic, Htif.initial w mem) (.ret a, s)) :
    ∃ v, c.Atomic serve (HtifView.initial w) a v ∧ s.host.world = v.world ∧
      s.host.served = v.served ∧ s.host.shown ++ outgoing s.tohost = v.shown ∧
      v.received <+: s.host.typed ∧ s.host.typed.length ≤ v.received.length + 1 := by
  have hfine := c.code_spec hm h0 (HtifView.initial w) _ (htifReady_initial w mem) _
    (hrun.mono hhost)
  obtain ⟨v, hatomic, x, -, hlink⟩ := hfine.post a rfl
  exact ⟨v, hatomic, hlink.world, hlink.served, hlink.shown, ⟨_, hlink.typed⟩, hlink.typed_length⟩

omit hhost hm h0 in
theorem htif_atomic_sample : ∃ s : Htif Word,
    Runs (HostStep sampleServe) (sampleClient.code 0x80000000, Htif.initial 7 fun _ => 0)
      (.ret 12, s) ∧ s.host.served = [(List.replicate 8 5, 12)] := by
  obtain ⟨a, s, hrun⟩ : ∃ a s, Runs (HostStep sampleServe)
      (sampleClient.code 0x80000000, Htif.initial 7 fun _ => 0) (.ret a, s) :=
    (sampleClient.code_spec (by decide) (by decide) (HtifView.initial 7) _
      (htifReady_initial 7 fun _ => 0) _ ReflTransGen.refl).ends
  obtain ⟨v, hatomic, -, hserved, -⟩ :=
    htif_atomic (fun _ _ h => h) (by decide) (by decide) _ _ _ hrun
  obtain ⟨rfl, rfl⟩ : a = 12 ∧ v = _ := hatomic
  exact ⟨s, hrun, hserved.trans (by decide)⟩

/-- **No interleaving gets stuck.** From every state that can be reached, the kernel can
    complete the client with steps that a host may make. -/
theorem htif_completes {c' : Htif.Target W α}
    (hrun : Runs host (c.code magic, Htif.initial w mem) (c', s)) :
    ∃ a t, Runs (HostStep serve) (c', s) (.ret a, t) :=
  (c.code_spec hm h0 (HtifView.initial w) _ (htifReady_initial w mem) _ (hrun.mono hhost)).ends

end Client

theorem htif_completes_sample : ∃ s : Htif Word, s.tohost = tohostCmd 1 1 65 ∧ ∃ a t,
    Runs (HostStep sampleServe)
      ((HtifClient.syscall (fun _ => 5) .done : HtifClient Word Word).code 0x80000000, s)
      (.ret a, t) := by
  obtain ⟨s, hto, hrun⟩ := sampleClient_run
  exact ⟨s, hto, htif_completes (fun _ _ h => h) (by decide) (by decide) _ _ _ hrun⟩

end Pke
