import Pke.Lib.Interleave
import Pke.Mm.Pmm

/-!
# The host-target interface

The target side of HTIF: `spike_htif.c` and `frontend_syscall` of `spike_utils.c`. Kernel and
host run at the same time and share `tohost`, `fromhost` and the words of `magic_mem`, so the
functions are `Code`: every access to a variable of the kernel is one step, and the host can act
between any two of them.

The host is not part of the kernel: it is any relation on the states whose steps are steps of
`HostStep`, which is what the kernel relies on:
* it takes a command out of `tohost` by setting it to 0;
* it writes a reply to `fromhost` only when `fromhost` is 0, in the order of the replies;
* it answers a system call once, with the result in the first word of the request;
* it answers a request for a character once, when a character is typed, and it may or may not
  answer the output of one.

`HtifClient` is code of the kernel that uses the interface, in any order and depending on the
results; `HtifClient.code` is that code with the functions of `spike_htif.c` in place of the calls.
-/

namespace Pke

open Lib

/-! ## Commands and replies -/

/-- `TOHOST_CMD` (`spike_htif.h` line 8). -/
def tohostCmd (dev cmd payload : Word) : Word := dev <<< 56 ||| cmd <<< 48 ||| payload

/-- `FROMHOST_DEV` (`spike_htif.h` line 17). -/
def fromhostDev (v : Word) : Word := v >>> 56

/-- `FROMHOST_CMD` (`spike_htif.h` line 18). -/
def fromhostCmd (v : Word) : Word := v <<< 8 >>> 56

/-- `FROMHOST_DATA` (`spike_htif.h` line 19). -/
def fromhostData (v : Word) : Word := v <<< 16 >>> 16

/-- The reply to a system call. -/
def syscallReply : Word := tohostCmd 0 0 1

/-- The reply to a character that was shown. -/
def putcharReply : Word := tohostCmd 1 1 0

/-- The reply to a request for a character. -/
def getcharReply (ch : BitVec 8) : Word := tohostCmd 1 0 (0x100 + ch.setWidth 64)

/-! ## The state -/

/-- The locks: `htif_lock` of `spike_htif.c` and `lock` in `frontend_syscall`. -/
inductive Spinlock where
  | htifLock
  | lock
  deriving DecidableEq

/-- The variables of the kernel for the interface, and the words of memory that hold
    `magic_mem`. -/
structure HtifVars where
  htifConsoleBuf : ℤ
  spin : Spinlock → ℤ
  mem : Word → Word

/-- Stores a word. -/
def HtifVars.store (a v : Word) (x : HtifVars) : HtifVars :=
  { x with mem := Function.update x.mem a v }

/-- The host: the world it works on, the replies it has not written yet, the requests for a
    character that are open, and what was shown, typed and served so far. -/
structure HtifHost (W : Type) where
  world : W
  replies : List Word
  reads : ℕ
  shown : List (BitVec 8)
  typed : List (BitVec 8)
  served : List (List Word × Word)

/-- Kernel and host. -/
structure Htif (W : Type) where
  tohost : Word
  fromhost : Word
  vars : HtifVars
  host : HtifHost W

variable {W : Type}

/-- The `n` words from an address on. -/
def loadWords (mem : Word → Word) : ℕ → Word → List Word
  | 0, _ => []
  | n + 1, a => mem a :: loadWords mem n (a + 8)

/-! ## The host -/

namespace Htif

/-- The host takes a system call, whose eight words are at the address in the command. -/
def takeSyscall (serve : W → List Word → Word × W) (s : Htif W) : Htif W :=
  let data := fromhostData s.tohost
  let args := loadWords s.vars.mem 8 data
  let (r, world) := serve s.host.world args
  { s with
    tohost := 0
    vars := s.vars.store data r
    host := { s.host with
      world := world
      replies := s.host.replies ++ [syscallReply]
      served := s.host.served ++ [(args, r)] } }

/-- The host takes a character to be shown. -/
def takePutchar (answer : Bool) (s : Htif W) : Htif W :=
  { s with
    tohost := 0
    host := { s.host with
      replies := s.host.replies ++ if answer then [putcharReply] else []
      shown := s.host.shown ++ [(fromhostData s.tohost).setWidth 8] } }

/-- The host takes a request for a character. -/
def takeGetchar (s : Htif W) : Htif W :=
  { s with tohost := 0, host := { s.host with reads := s.host.reads + 1 } }

/-- A character is typed, and a request for one is open. -/
def typeChar (ch : BitVec 8) (s : Htif W) : Htif W :=
  { s with host := { s.host with
      reads := s.host.reads - 1
      replies := s.host.replies ++ [getcharReply ch]
      typed := s.host.typed ++ [ch] } }

/-- The host writes its next reply. -/
def deliver (reply : Word) (replies : List Word) (s : Htif W) : Htif W :=
  { s with fromhost := reply, host := { s.host with replies := replies } }

end Htif

/-- What a host may do. -/
inductive HostStep (serve : W → List Word → Word × W) (s : Htif W) : Htif W → Prop where
  | syscall (h : s.tohost ≠ 0) (hdev : fromhostDev s.tohost = 0) (hcmd : fromhostCmd s.tohost = 0) :
    HostStep serve s (s.takeSyscall serve)
  | putchar (hdev : fromhostDev s.tohost = 1) (hcmd : fromhostCmd s.tohost = 1) (answer : Bool) :
    HostStep serve s (s.takePutchar answer)
  | getchar (hdev : fromhostDev s.tohost = 1) (hcmd : fromhostCmd s.tohost = 0) :
    HostStep serve s s.takeGetchar
  | typed (h : 0 < s.host.reads) (ch : BitVec 8) : HostStep serve s (s.typeChar ch)
  | deliver (h : s.fromhost = 0) {reply : Word} {replies : List Word}
      (hr : s.host.replies = reply :: replies) : HostStep serve s (s.deliver reply replies)

/-! ## The kernel -/

namespace Htif

/-- Code of the kernel. -/
abbrev Target (W α : Type) : Type 1 := Code (Htif W) Halt α

/-- Changes the variables of the kernel. -/
def setVars (f : HtifVars → HtifVars) : Target W Unit :=
  Code.write fun s => { s with vars := f s.vars }

/-- Sets a lock. -/
def setLock (l : Spinlock) (v : ℤ) : Target W Unit :=
  setVars fun x => { x with spin := Function.update x.spin l v }

/-- `spinlock_trylock` (`atomic.h` lines 47–51): `atomic_swap` is a read and a write. -/
def spinlockTrylock (l : Spinlock) : Target W ℤ := do
  let res ← Code.read fun s => s.vars.spin l
  setLock l (-1)
  return res

/-- `spinlock_lock` (`atomic.h` lines 53–58). -/
def spinlockLock (l : Spinlock) : Target W Unit :=
  Code.loop do
    Code.loop do
      let v ← Code.read fun s => s.vars.spin l
      return decide (v ≠ 0)
    let res ← spinlockTrylock l
    return decide (res ≠ 0)

/-- `spinlock_unlock` (`atomic.h` lines 60–63). -/
def spinlockUnlock (l : Spinlock) : Target W Unit := setLock l 0

/-- `__check_fromhost` (`spike_htif.c` lines 75–91). -/
def checkFromhost : Target W Unit := do
  let fh ← Code.read fromhost
  if fh = 0 then return
  else
    Code.write fun s => { s with fromhost := 0 }
    if fromhostDev fh ≠ 1 then .fail (.assertion "FROMHOST_DEV(fh) == 1")
    else if fromhostCmd fh = 0 then
      setVars fun x => { x with htifConsoleBuf := 1 + ((fromhostData fh).setWidth 8).toNat }
    else if fromhostCmd fh = 1 then return
    else .fail (.assertion "0")

/-- The body of the loop of `__set_tohost`. -/
def setTohostRound : Target W Bool := do
  let v ← Code.read tohost
  if v = 0 then return false
  else
    checkFromhost
    return true

/-- `__set_tohost` (`spike_htif.c` lines 93–96). -/
def setTohost (dev cmd data : Word) : Target W Unit := do
  Code.loop setTohostRound
  Code.write fun s => { s with tohost := tohostCmd dev cmd data }

/-- The body of the loop of `do_tohost_fromhost`. -/
def fromhostRound (dev cmd : Word) : Target W Bool := do
  let fh ← Code.read fromhost
  if fh = 0 then return true
  else if fromhostDev fh = dev ∧ fromhostCmd fh = cmd then
    Code.write fun s => { s with fromhost := 0 }
    return false
  else
    checkFromhost
    return true

/-- `do_tohost_fromhost` (`spike_htif.c` lines 98–113). -/
def doTohostFromhost (dev cmd data : Word) : Target W Unit := do
  spinlockLock .htifLock
  setTohost dev cmd data
  Code.loop (fromhostRound dev cmd)
  spinlockUnlock .htifLock

/-- `htif_syscall` (`spike_htif.c` line 116). -/
def htifSyscall (arg : Word) : Target W Unit := doTohostFromhost 0 0 arg

/-- `htif_console_putchar` (`spike_htif.c` lines 119–133). -/
def htifConsolePutchar (ch : BitVec 8) : Target W Unit := do
  spinlockLock .htifLock
  setTohost 1 1 (ch.setWidth 64)
  spinlockUnlock .htifLock

/-- `htif_console_getchar` (`spike_htif.c` lines 135–151). -/
def htifConsoleGetchar : Target W ℤ := do
  spinlockLock .htifLock
  checkFromhost
  let ch ← Code.read fun s => s.vars.htifConsoleBuf
  if 0 ≤ ch then
    setVars fun x => { x with htifConsoleBuf := -1 }
    setTohost 1 0 0
    spinlockUnlock .htifLock
    return ch - 1
  else
    spinlockUnlock .htifLock
    return ch - 1

/-- Stores words one after the other. -/
def storeWords : Word → List Word → Target W Unit
  | _, [] => return
  | a, v :: vs => do
    setVars (HtifVars.store a v)
    storeWords (a + 8) vs

/-- `frontend_syscall` (`spike_utils.c` lines 15–37), with `magic_mem` at `magic`. The words
    are the number of the call and its seven arguments. -/
def frontendSyscall (magic : Word) (args : Fin 8 → Word) : Target W Word := do
  spinlockLock .lock
  storeWords magic (List.ofFn args)
  htifSyscall magic
  let ret ← Code.read fun s => s.vars.mem magic
  spinlockUnlock .lock
  return ret

end Htif

/-! ## Code that uses the interface -/

/-- Code of the kernel that calls the host; in between it works on the rest of the world. -/
inductive HtifClient (W : Type) : Type → Type 1 where
  | done {α : Type} (a : α) : HtifClient W α
  | syscall {α : Type} (args : Fin 8 → Word) (k : Word → HtifClient W α) : HtifClient W α
  | putchar {α : Type} (ch : BitVec 8) (k : HtifClient W α) : HtifClient W α
  | getchar {α : Type} (k : ℤ → HtifClient W α) : HtifClient W α
  | work {α β : Type} (f : W → β × W) (k : β → HtifClient W α) : HtifClient W α

namespace HtifClient

variable {α β : Type}

/-- The code of a client. -/
def code (magic : Word) : HtifClient W α → Htif.Target W α
  | done a => return a
  | syscall args k => do
    let r ← Htif.frontendSyscall magic args
    (k r).code magic
  | putchar ch k => do
    Htif.htifConsolePutchar ch
    k.code magic
  | getchar k => do
    let ch ← Htif.htifConsoleGetchar
    (k ch).code magic
  | work f k =>
    .act (fun s => ((f s.host.world).1, { s with host := { s.host with
      world := (f s.host.world).2 } })) fun b => (k b).code magic

end HtifClient

end Pke
