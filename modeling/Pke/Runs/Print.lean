import Pke.Boot.Memory
import Pke.Mm.Walk
import Pke.Runs.Format

/-!
# What the print system call writes

`sys_user_print` translates the address of the first byte of the user's string and
hands it to `vprintk` as the format. So a string comes out as it is exactly if the
bytes that follow each other in physical memory are those of the string, as plain
text.
-/

namespace Pke

open Lib

variable {m : Mem} {ph : Phys} {pagetable buf pa : Word} {str fmt : List (BitVec 8)} {s : Kernel}
  {i : Pid}

/-! ## The system call -/

/-- The physical address of a user address whose page is mapped. -/
def userPa (ph : Phys) (pagetable va : Word) : Option Word :=
  match pageWalk pagetable va false ph with
  | .ret pte _ =>
    if pte ≠ 0 ∧ load64 ph.mem pte &&& PTE_V ≠ 0 then
      some (PTE2PA (load64 ph.mem pte) + (va &&& 0xFFF#64))
    else none
  | _ => none

/-- The string `str` and a NUL behind it are stored at the user addresses from `buf`
    on, all of which are mapped. -/
structure UserString (ph : Phys) (pagetable buf : Word) (str : List (BitVec 8)) : Prop where
  nonzero : 0 ∉ str
  stored : ∀ k ≤ str.length, ∃ pa, userPa ph pagetable (buf + BitVec.ofNat 64 k) = some pa ∧
    (str ++ [0])[k]? = some (load8 ph.mem pa)

/-- Walking without allocation writes nothing. -/
theorem pageWalkLoop_same (va : Word) (ph : Phys) (level : ℕ) :
    ∀ pt, ∃ pte, pageWalkLoop va false level pt ph = .ret pte ph := by
  induction level with
  | zero => exact fun pt => ⟨_, rfl⟩
  | succ level ih =>
    intro pt
    rw [pageWalkLoop, load, Prog.bind_of_ret (Prog.gets_apply _ _)]
    by_cases hv : load64 ph.mem (slot pt (PX (level + 1) va)) &&& PTE_V ≠ 0
    · rw [if_pos hv]
      exact ih _
    · rw [if_neg hv]
      exact ⟨0, rfl⟩

/-- For a mapped address `user_va_to_pa` finds the physical address. -/
theorem userVaToPa_of_userPa (h : userPa ph pagetable buf = some pa) :
    userVaToPa pagetable buf ph = .ret pa ph := by
  unfold userPa at h
  by_cases hva : MAXVA ≤ buf
  · rw [pageWalk, if_pos hva] at h
    cases h
  · obtain ⟨pte, hwalk⟩ := pageWalkLoop_same buf ph 2 pagetable
    have hwalk : pageWalk pagetable buf false ph = .ret pte ph := by
      rw [pageWalk, if_neg hva, hwalk]
    rw [hwalk] at h
    dsimp only at h
    split_ifs at h with hpte
    obtain rfl := Option.some.inj h
    rw [userVaToPa, Prog.bind_of_ret hwalk, if_neg hpte.1]
    rfl

/-- The kernel prints the string it finds at the physical address. -/
theorem userPrint_eq (hcur : s.current = some i)
    (hpa : userPa s.phys (s.procs i).pagetable buf = some pa) (n : Word) (args : ℕ → Word)
    (out : ℕ → BitVec 8) :
    userPrint args out buf n s =
      (kstring s.phys.mem pa).bind fun fmt => vprintk s.phys.mem args fmt out := by
  have hread : onPhys (userVaToPa (s.procs i).pagetable buf) s = .ret pa s :=
    Prog.zoom_of_ret (userVaToPa_of_userPa hpa)
  have hcall : sysUserPrint buf n s = (sprintUser pa >>= fun _ => pure 0) s := by
    rw [sysUserPrint, Prog.bind_of_ret (Prog.gets_apply _ _), hcur]
    dsimp only
    rw [proc, Prog.bind_of_ret (Prog.gets_apply _ _), Prog.bind_of_ret hread]
  rw [userPrint, hcall, sprintUser, kstring, Prog.bind_assoc,
    Prog.bind_of_ret (Prog.gets_apply _ _)]
  by_cases hlow : pa < KERN_BASE
  · rw [if_pos hlow, if_pos hlow]
    rfl
  · rw [if_neg hlow, if_neg hlow]
    cases cstring s.phys.mem (PHYS_TOP.toNat - pa.toNat) pa with
    | none => rfl
    | some fmt =>
      exact congrArg (Option.bind · fun fmt => vprintk s.phys.mem args fmt out)
        (userFormat_concat s fmt)

theorem cstring_length :
    ∀ {n : ℕ} {a : Word} {bs : List (BitVec 8)}, cstring m n a = some bs → bs.length < n := by
  intro n
  induction n with
  | zero => exact fun h => nomatch h
  | succ n ih =>
    intro a bs h
    rw [cstring] at h
    split_ifs at h
    · obtain rfl := Option.some.inj h
      exact Nat.succ_pos n
    · obtain ⟨bs', hbs', rfl⟩ := Option.map_eq_some_iff.mp h
      exact Nat.succ_lt_succ (ih hbs')

theorem kstring_length {a : Word} (h : kstring m a = some fmt) : fmt.length ≤ 2 ^ 27 := by
  unfold kstring at h
  split_ifs at h with hlow
  have hlen := cstring_length h
  have hbase : KERN_BASE.toNat ≤ a.toNat := BitVec.le_def.mp (BitVec.not_lt.mp hlow)
  rw [show KERN_BASE.toNat = 2 ^ 31 from rfl] at hbase
  rw [show PHYS_TOP.toNat = 2 ^ 31 + 2 ^ 27 from rfl] at hlen
  omega

/-! ## A string in one page -/

/-- A walk depends on the page of the address only. -/
theorem pageWalkLoop_congr {va va' : Word} (h : vpn va = vpn va') (alloc : Bool) :
    ∀ level ≤ 2, ∀ pt, pageWalkLoop va alloc level pt = pageWalkLoop va' alloc level pt := by
  intro level
  induction level with
  | zero =>
    intro _ pt
    rw [pageWalkLoop, pageWalkLoop, PX_eq (Nat.zero_le 2), PX_eq (Nat.zero_le 2), h]
  | succ level ih =>
    intro hl pt
    rw [pageWalkLoop, pageWalkLoop, PX_eq hl, PX_eq hl, h]
    simp only [ih (by omega)]

/-- The bytes of a page follow each other in its frame. -/
theorem userPa_add {k : ℕ} (h : userPa ph pagetable buf = some pa)
    (hk : buf.toNat % 4096 + k < 4096) :
    userPa ph pagetable (buf + BitVec.ofNat 64 k) = some (pa + BitVec.ofNat 64 k) := by
  have hlow : ¬ MAXVA ≤ buf := by
    intro hva
    rw [userPa, pageWalk, if_pos hva] at h
    cases h
  have hbuf : buf.toNat < 2 ^ 38 := toNat_lt_of_lt_MAXVA (BitVec.not_le.mp hlow)
  have hsum : (buf + BitVec.ofNat 64 k).toNat = buf.toNat + k := by
    rw [BitVec.toNat_add, BitVec.toNat_ofNat]
    omega
  have hlow' : ¬ MAXVA ≤ buf + BitVec.ofNat 64 k := by
    rw [BitVec.le_def, hsum, show MAXVA.toNat = 2 ^ 38 from rfl]
    omega
  have hvpn : vpn (buf + BitVec.ofNat 64 k) = vpn buf := by
    rw [vpn_eq_iff (BitVec.not_le.mp hlow') (BitVec.not_le.mp hlow), hsum]
    omega
  have hoff : (buf + BitVec.ofNat 64 k) &&& 0xFFF#64 = (buf &&& 0xFFF#64) + BitVec.ofNat 64 k := by
    apply BitVec.eq_of_toNat_eq
    rw [and_mask, and_mask, BitVec.toNat_umod, hsum, BitVec.toNat_add, BitVec.toNat_umod,
      BitVec.toNat_ofNat, show PGSIZE.toNat = 4096 from rfl]
    omega
  unfold userPa at h ⊢
  rw [pageWalk, if_neg hlow] at h
  rw [pageWalk, if_neg hlow', pageWalkLoop_congr hvpn _ 2 le_rfl, hoff]
  obtain ⟨pte, hwalk⟩ := pageWalkLoop_same buf ph 2 pagetable
  rw [hwalk] at h ⊢
  dsimp only at h ⊢
  split_ifs at h ⊢ with hpte
  obtain rfl := Option.some.inj h
  rw [BitVec.add_assoc]

theorem cstring_of_bytes :
    ∀ {str : List (BitVec 8)} {n : ℕ} {a : Word}, str.length < n → 0 ∉ str →
      (∀ k ≤ str.length, (str ++ [0])[k]? = some (load8 m (a + BitVec.ofNat 64 k))) →
      cstring m n a = some str := by
  intro str
  induction str with
  | nil =>
    intro n a hn _ hbytes
    obtain ⟨n, rfl⟩ := Nat.exists_eq_succ_of_ne_zero (Nat.ne_zero_of_lt hn)
    have h0 := hbytes 0 le_rfl
    rw [cstring, if_pos]
    simpa using h0.symm
  | cons c str ih =>
    intro n a hn hstr hbytes
    obtain ⟨n, rfl⟩ := Nat.exists_eq_succ_of_ne_zero (Nat.ne_zero_of_lt hn)
    obtain ⟨hc, hstr⟩ := not_or.mp (mt List.mem_cons.mpr hstr)
    have h0 : load8 m a = c := by
      have := hbytes 0 (Nat.zero_le _)
      simpa using this.symm
    have hrest : cstring m n (a + 1) = some str := by
      refine ih (Nat.lt_of_succ_lt_succ hn) hstr fun k hk => ?_
      have := hbytes (k + 1) (Nat.succ_le_succ hk)
      rw [List.cons_append, List.getElem?_cons_succ] at this
      rw [this, BitVec.add_assoc]
      congr 3
      apply BitVec.eq_of_toNat_eq
      simp [BitVec.toNat_add, Nat.add_comm]
    rw [cstring, h0, if_neg (Ne.symm hc), hrest]
    rfl

/-- In one page of the memory that the kernel maps, a string is what the kernel reads. -/
theorem UserString.kstring_eq (h : UserString ph pagetable buf str)
    (hpage : buf.toNat % 4096 + str.length < 4096) (hpa : userPa ph pagetable buf = some pa)
    (hlow : KERN_BASE ≤ pa) (hhigh : pa.toNat + str.length < PHYS_TOP.toNat) :
    kstring ph.mem pa = some str := by
  rw [kstring, if_neg (BitVec.not_lt.mpr hlow)]
  refine cstring_of_bytes (by omega) h.nonzero fun k hk => ?_
  obtain ⟨pa', hpa', hbyte⟩ := h.stored k hk
  rw [userPa_add hpa (by omega)] at hpa'
  rw [hbyte, Option.some.inj hpa']

/-! ## What comes out -/

/-- **What user printing prints.** `sys_user_print` writes the string to the host,
    whatever the registers and the buffer on the stack hold, exactly if the bytes from
    the physical address of its first byte on are the string as plain text. -/
theorem userPrint_exact_iff (hcur : s.current = some i)
    (hstr : UserString s.phys (s.procs i).pagetable buf str) (hlen : str.length < 256) :
    (∀ args out, userPrint args out buf (BitVec.ofNat 64 str.length) s = some str) ↔
      ∃ pa fmt, userPa s.phys (s.procs i).pagetable buf = some pa ∧
        kstring s.phys.mem pa = some fmt ∧ Plain fmt str := by
  obtain ⟨pa, hpa, -⟩ := hstr.stored 0 (Nat.zero_le _)
  rw [show buf + BitVec.ofNat 64 0 = buf from BitVec.add_zero buf] at hpa
  simp only [userPrint_eq hcur hpa]
  constructor
  · intro h
    obtain ⟨fmt, hfmt, -⟩ := Option.bind_eq_some_iff.mp (h (fun _ => 0) fun _ => 0)
    refine ⟨pa, fmt, hpa, hfmt, (vprintk_eq_iff (m := s.phys.mem) hlen (kstring_length hfmt)).mp ?_⟩
    intro args out
    have := h args out
    rwa [hfmt] at this
  · rintro ⟨pa', fmt, hpa', hfmt, hplain⟩ args out
    obtain rfl : pa = pa' := Option.some.inj (hpa.symm.trans hpa')
    rw [hfmt]
    exact (vprintk_eq_iff hlen (kstring_length hfmt)).mpr hplain args out

/-- Process `i`, with one page at `USER_FREE_ADDRESS_START`, which starts with `w`. -/
def onePage (i : Pid) (w : Word) : Kernel :=
  { powerOn 0 with
    phys.mem := fun p j =>
      if p = 0x80001 ∧ j = 0 then mkPte (addr 0x80002) 0
      else if p = 0x80002 ∧ j = 2 then mkPte (addr 0x80003) 0
      else if p = 0x80003 ∧ j = 0 then
        mkPte (addr 0x80004) (protToType (PROT_READ ||| PROT_WRITE) 1)
      else if p = 0x80004 ∧ j = 0 then w
      else 0
    current := some i
    procs := fun _ => ⟨0, addr 0x80001, 0, 0, 0, 0, .READY, none, none, 0⟩ }

theorem onePage_string {w : Word} (hw : w = 0x41 ∨ w = 0x25) :
    UserString (onePage 0 w).phys (addr 0x80001) USER_FREE_ADDRESS_START [w.setWidth 8] := by
  refine ⟨?_, fun k hk => ⟨addr 0x80004 + BitVec.ofNat 64 k, ?_⟩⟩
  · rcases hw with rfl | rfl <;> decide
  · obtain rfl | rfl : k = 0 ∨ k = 1 := by
      rw [List.length_singleton] at hk
      omega
    all_goals rcases hw with rfl | rfl <;> decide

/-- The string "A" comes out as it is. -/
theorem userPrint_exact_sample :
    userPrint (fun _ => 0) (fun _ => 0) USER_FREE_ADDRESS_START 1 (onePage 0 0x41) =
      some [ascii 'A'] := by
  have hstr : UserString (onePage 0 0x41).phys (addr 0x80001) USER_FREE_ADDRESS_START [ascii 'A'] :=
    onePage_string (Or.inl rfl)
  refine (userPrint_exact_iff (i := 0) rfl hstr (by decide)).mpr
    ⟨addr 0x80004, [ascii 'A'], by decide, ?_, by decide, Or.inl rfl⟩ (fun _ => 0) fun _ => 0
  exact hstr.kstring_eq (by decide) (by decide) (by decide) (by decide)

/-- The string "%" does not: nothing is written. -/
theorem userPrint_percent :
    UserString (onePage 0 0x25).phys (addr 0x80001) USER_FREE_ADDRESS_START [ascii '%'] ∧
      ¬ ∀ args out,
        userPrint args out USER_FREE_ADDRESS_START 1 (onePage 0 0x25) = some [ascii '%'] := by
  have hstr : UserString (onePage 0 0x25).phys (addr 0x80001) USER_FREE_ADDRESS_START [ascii '%'] :=
    onePage_string (Or.inr rfl)
  refine ⟨hstr, fun h => ?_⟩
  have hpa : userPa (onePage 0 0x25).phys (addr 0x80001) USER_FREE_ADDRESS_START =
      some (addr 0x80004) := by decide
  have hprint := h (fun _ => 0) fun _ => 0
  rw [userPrint_eq (i := 0) rfl hpa, hstr.kstring_eq (by decide) hpa (by decide) (by decide)]
    at hprint
  have hempty : vprintk (onePage 0 0x25).phys.mem (fun _ => 0) [ascii '%'] (fun _ => 0) =
      some [] := by decide
  cases hempty.symm.trans hprint

end Pke
