import Pke.Kernel.Trap

/-!
# Formatted output: the code

`vsnprintf` (`util/snprintf.c`) and `vprintk` (`spike_interface/spike_utils.c`),
which every `sprint` of the kernel goes through. The arguments a caller passes
behind the format are `args 0`, `args 1` and so on: what `va_arg` finds in the
registers and on the stack, whether the caller put something there or not. A
result of `none` is a fault of the kernel at the pointer of a `%s`.
-/

namespace Pke

/-- A character as the code stores it. -/
def ascii (c : Char) : BitVec 8 := BitVec.ofNat 8 c.toNat

/-- The variables of `vsnprintf`: `format`, `longarg`, `pos` and the buffer `out`,
    and how many arguments were taken from `vl`. `pos` is a `size_t` that no
    output is long enough to wrap. -/
structure Printer where
  format : Bool
  longarg : Bool
  pos : ℕ
  out : ℕ → BitVec 8
  taken : ℕ

namespace Printer

/-- `if (++pos < n) out[pos - 1] = c;`. -/
def put (n : ℕ) (c : BitVec 8) (p : Printer) : Printer :=
  { p with
    pos := p.pos + 1
    out := if p.pos + 1 < n then Function.update p.out p.pos c else p.out }

/-- The end of a conversion: `longarg = FALSE; format = FALSE;`. -/
def done (p : Printer) : Printer :=
  { p with longarg := false, format := false, taken := p.taken + 1 }

end Printer

/-- `longarg ? va_arg(vl, long) : va_arg(vl, int)`. -/
def vaNum (longarg : Bool) (w : Word) : Word := if longarg then w else asInt w

/-- The hexadecimal digit `(num >> (4 * i)) & 0xF`. -/
def hexDigit (num : Word) (i : ℕ) : BitVec 8 :=
  let d := (num.sshiftRight (4 * i) &&& 0xF#64).setWidth 8
  if d < 10 then ascii '0' + d else ascii 'a' + d - 10

/-- The loop of `%x`, from digit `i - 1` down to digit 0. -/
def putHex (n : ℕ) (num : Word) : ℕ → Printer → Printer
  | 0, p => p
  | i + 1, p => putHex n num i (p.put n (hexDigit num i))

/-- How many hexadecimal digits `%x` prints. -/
def hexLength (longarg : Bool) : ℕ := if longarg then 16 else 8

/-- `for (long nn = num; nn /= 10; digits++)`; a `long` has at most 19 digits. -/
def decLength : ℕ → ℤ → ℕ → ℕ
  | 0, _, digits => digits
  | k + 1, nn, digits =>
    if nn.tdiv 10 = 0 then digits else decLength k (nn.tdiv 10) (digits + 1)

/-- The decimal digit `'0' + (num % 10)`. -/
def decDigit (num : ℤ) : BitVec 8 := ascii '0' + BitVec.ofInt 8 (num.tmod 10)

/-- The loop of `%d` that writes `i` digits behind `pos`, the last one first. -/
def putDec (n pos : ℕ) : ℕ → ℤ → (ℕ → BitVec 8) → ℕ → BitVec 8
  | 0, _, out => out
  | i + 1, num, out =>
    putDec n pos i (num.tdiv 10)
      (if pos + i + 1 < n then Function.update out (pos + i) (decDigit num) else out)

/-- The string at an address of the kernel, which maps `[KERN_BASE, PHYS_TOP)`. -/
def kstring (m : Mem) (a : Word) : Option (List (BitVec 8)) :=
  if a < KERN_BASE then none else cstring m (PHYS_TOP.toNat - a.toNat) a

namespace Printer

/-- `%x`. -/
def hex (n : ℕ) (w : Word) (p : Printer) : Printer :=
  (putHex n (vaNum p.longarg w) (hexLength p.longarg) p).done

/-- `%d`. -/
def dec (n : ℕ) (w : Word) (p : Printer) : Printer :=
  let num := vaNum p.longarg w
  let q := if num.toInt < 0 then p.put n (ascii '-') else p
  let num := if num.toInt < 0 then -num else num
  let digits := decLength 19 num.toInt 1
  { q with pos := q.pos + digits, out := putDec n q.pos digits num.toInt q.out }.done

/-- `%s`. -/
def str (n : ℕ) (bs : List (BitVec 8)) (p : Printer) : Printer :=
  (bs.foldl (fun p c => p.put n c) p).done

/-- One round of the loop of `vsnprintf` (`util/snprintf.c` lines 16–75). -/
def char (n : ℕ) (m : Mem) (args : ℕ → Word) (p : Printer) (c : BitVec 8) : Option Printer :=
  if p.format then
    if c = ascii 'l' then some { p with longarg := true }
    else if c = ascii 'p' then
      -- falls through to the case of `x`
      some ((({ p with longarg := true }.put n (ascii '0')).put n (ascii 'x')).hex n (args p.taken))
    else if c = ascii 'x' then some (p.hex n (args p.taken))
    else if c = ascii 'd' then some (p.dec n (args p.taken))
    else if c = ascii 's' then (kstring m (args p.taken)).map fun bs => p.str n bs
    else if c = ascii 'c' then some ((p.put n ((args p.taken).setWidth 8)).done)
    else some p
  else if c = ascii '%' then some { p with format := true }
  else some (p.put n c)

end Printer

/-- `vsnprintf(out, n, s, vl)` (`util/snprintf.c` lines 11–83), with the result as
    an `int32`. -/
def vsnprintf (m : Mem) (args : ℕ → Word) (n : ℕ) (s : List (BitVec 8)) (out : ℕ → BitVec 8) :
    Option (BitVec 32 × (ℕ → BitVec 8)) := do
  let p ← s.foldlM (Printer.char n m args) ⟨false, false, 0, out, 0⟩
  let out :=
    if p.pos < n then Function.update p.out p.pos 0
    else if n ≠ 0 then Function.update p.out (n - 1) 0
    else p.out
  return (BitVec.ofNat 32 p.pos, out)

/-- The bytes that `vprintk(s, vl)` passes to the host (`spike_interface/spike_utils.c`
    lines 47–52); `out` is what the buffer on the stack held before. -/
def vprintk (m : Mem) (args : ℕ → Word) (s : List (BitVec 8)) (out : ℕ → BitVec 8) :
    Option (List (BitVec 8)) := do
  let (res, out) ← vsnprintf m args 256 s out
  -- the comparison converts `res` to `size_t`
  let size := (res.signExtend 64).toNat
  return (List.range (if size < 256 then size else 256)).map out

/-- The format of the last `sprint`, if it was a string of the user. -/
def userFormat (s : Kernel) : Option (List (BitVec 8)) :=
  match s.console.getLast? with
  | some (.user fmt) => some fmt
  | _ => none

/-- What `sys_user_print(buf, n)` writes to the host, if the kernel gets that far. -/
def userPrint (args : ℕ → Word) (out : ℕ → BitVec 8) (buf n : Word) (s : Kernel) :
    Option (List (BitVec 8)) :=
  match sysUserPrint buf n s with
  | .ret _ s' => (userFormat s').bind fun fmt => vprintk s'.phys.mem args fmt out
  | _ => none

theorem userFormat_concat (s : Kernel) (fmt : List (BitVec 8)) :
    userFormat { s with console := s.console ++ [.user fmt] } = some fmt := by
  rw [userFormat, List.getLast?_concat]

end Pke
