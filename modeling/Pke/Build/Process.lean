import Pke.Build.Basic
import Pke.Boot.Single

/-!
# The address space that `alloc_process` builds

For every free list: the five pages `alloc_process` takes, the tables it adds, and the
three pages it maps.
-/

namespace Pke

open Lib Radix

variable {L : Layout} {s s' : Kernel} {fl fl' : List Ppn} {i : Pid}

/-! ## Running code on physical memory -/

section Steps

variable {α β : Type} {R : β → Kernel → Prop} {E : Kernel → Prop} {H : Halt → Prop}

/-- Code on physical memory in front of the rest. -/
theorem wp_phys {c : PhysM α} {k : α → KernelM β} {Q : α → Phys → Prop} {N : Halt → Prop}
    (h : Prog.wp c Q (fun _ => False) N s.phys)
    (hk : ∀ a s', PhysOnly s s' → Q a s'.phys → Prog.wp (k a) R E H s') (hH : ∀ e, N e → H e) :
    Prog.wp (onPhys c >>= k) R E H s := by
  rw [Prog.wp_bind, wp_onPhys]
  exact Prog.wp_mono h (fun a _ hq => hk a _ rfl hq) (fun _ hf => hf.elim) hH

theorem wp_physLast {c : PhysM β} {Q : β → Phys → Prop} {N : Halt → Prop}
    (h : Prog.wp c Q (fun _ => False) N s.phys)
    (hk : ∀ a s', PhysOnly s s' → Q a s'.phys → R a s') (hH : ∀ e, N e → H e) :
    Prog.wp (onPhys c) R E H s := by
  rw [wp_onPhys]
  exact Prog.wp_mono h (fun a _ hq => hk a _ rfl hq) (fun _ hf => hf.elim) hH

/-- Taking a page off the free list. -/
theorem wp_allocPage (h : FreeList s.phys fl) {k : Word → KernelM β}
    (hnil : fl = [] → s.phys.gFreeMemList = 0 → Prog.wp (k 0) R E H s)
    (hcons : ∀ p fl' g s', fl = p :: fl' → FreeList s'.phys fl' →
      s' = { s with phys := { s.phys with gFreeMemList := g } } → Prog.wp (k (addr p)) R E H s') :
    Prog.wp (onPhys allocPage >>= k) R E H s := by
  rw [Prog.wp_bind, wp_onPhys]
  cases fl with
  | nil => exact (Prog.wp_of_ret (allocPage_nil h)).mpr (hnil rfl h)
  | cons p fl' =>
    obtain ⟨g, hrun, hfree⟩ := allocPage_cons h
    exact (Prog.wp_of_ret hrun).mpr (hcons p fl' g _ rfl hfree rfl)

theorem wp_assign {f : Process → Process} {k : Unit → KernelM β}
    (hk : ∀ s', s' = { s with procs := Function.update s.procs i (f (s.procs i)) } →
      Prog.wp (k ()) R E H s') : Prog.wp (setProc i f >>= k) R E H s := by
  rw [setProc, Prog.wp_bind, Prog.wp_modify]
  exact hk _ rfl

theorem wp_put {a v : Word} {k : Unit → KernelM β}
    (hk : ∀ s', s' = { s with phys := { s.phys with mem := store64 s.phys.mem a v } } →
      Prog.wp (k ()) R E H s') : Prog.wp (onPhys (store a v) >>= k) R E H s := by
  rw [store, Prog.wp_bind, wp_onPhys, Prog.wp_modify]
  exact hk _ rfl

/-- Taking a page off the free list for a field of `procs[i]` and clearing it. -/
theorem wp_takePage (h : FreeList s.phys fl) {f : Word → Process → Process} {n : ℕ}
    (hn : n ≤ 4096) {k : Word → KernelM β} (hnil : fl = [] → ∀ e, H e)
    (hcons : ∀ p fl' g s', fl = p :: fl' → FreeList s'.phys fl' →
      s' = { s with
        phys := { s.phys with mem := memset s.phys.mem (addr p) 0 n, gFreeMemList := g }
        procs := Function.update s.procs i (f (addr p) (s.procs i)) } →
      Prog.wp (k (addr p)) R E H s') :
    Prog.wp (do
      let p ← onPhys allocPage
      setProc i (f p)
      onPhys (physMemset p 0 n)
      k p) R E H s := by
  have hnodup := h.nodup
  refine wp_allocPage h (fun hempty _ => wp_noPage (hnil hempty)) fun p fl' g s₁ hfl hfree hs₁ => ?_
  subst hfl
  rw [setProc, Prog.wp_bind, Prog.wp_modify, Prog.wp_bind, wp_onPhys,
    Prog.wp_of_ret (physMemset_eq (h.ne_zero List.mem_cons_self) _ _ _)]
  refine hcons p fl' g _ rfl (hfree.frame rfl fun q hq => memset_of_ne _ _ hn ?_) (by rw [hs₁])
  rintro rfl
  exact (List.nodup_cons.mp hnodup).1 hq

end Steps

/-! ## Taking the pages -/

/-- Memory after `alloc_process` wrote to the pages it took. -/
def takenMem (m : Mem) (tf pt mi : Ppn) : Mem :=
  memset (store64 (memset (memset m (addr tf) 0 sizeofTrapframe) (addr pt) 0 4096)
    (frameSlot (addr tf) .sp) USER_STACK_TOP) (addr mi) 0 4096

theorem takenMem_of_ne (m : Mem) {tf pt mi q : Ppn} (h1 : q ≠ tf) (h2 : q ≠ pt) (h3 : q ≠ mi) :
    takenMem m tf pt mi q = m q := by
  rw [takenMem, memset_of_ne _ _ le_rfl h3, store64_of_ne (by rwa [frameSlot_ppn]),
    memset_of_ne _ _ le_rfl h2, memset_of_ne _ _ (by decide) h1]

theorem takenMem_table (m : Mem) {tf pt mi : Ppn} (h1 : pt ≠ tf) (h3 : pt ≠ mi) :
    takenMem m tf pt mi pt = fun _ => 0 := by
  rw [takenMem, memset_of_ne _ _ le_rfl h3, store64_of_ne (by rwa [frameSlot_ppn]), memset_page,
    Function.update_self]

theorem takenMem_info (m : Mem) (tf pt mi : Ppn) : takenMem m tf pt mi mi = fun _ => 0 := by
  rw [takenMem, memset_page, Function.update_self]

/-- The state after the pages were taken for slot `i`. -/
def takenState (s : Kernel) (i : Pid) (tf pt ks mi : Ppn) (g : Word) : Kernel :=
  { s with
    phys := { s.phys with mem := takenMem s.phys.mem tf pt mi, gFreeMemList := g }
    procs := Function.update s.procs i (withPages (s.procs i) tf pt ks mi) }

/-- `takePages` takes the first five pages of the free list, and stops if there are fewer. -/
theorem takePages_cases (h : FreeList s.phys fl) :
    Prog.wp (takePages i)
      (fun u s' => ∃ tf pt ks us mi fl' g, u = addr us ∧ fl = tf :: pt :: ks :: us :: mi :: fl' ∧
        s' = takenState s i tf pt ks mi g ∧ FreeList s'.phys fl')
      (fun _ => False) (fun _ => fl.length < 5) s := by
  have hnodup := h.nodup
  refine wp_takePage h (by decide) (fun hnil _ => by simp [hnil])
    fun tf fl₁ g₁ s₁ hfl₁ hf₁ hs₁ => ?_
  refine wp_takePage hf₁ le_rfl (fun hnil _ => by simp [hfl₁, hnil])
    fun pt fl₂ g₂ s₂ hfl₂ hf₂ hs₂ => ?_
  -- without a page for the kernel stack there is none for the regions either
  refine wp_allocPage hf₂ (fun hnil hempty => ?_) fun ks fl₃ g₃ s₃ hfl₃ hf₃ hs₃ => ?_
  · rw [setProc, Prog.wp_bind, Prog.wp_modify, Prog.wp_bind, wp_onPhys,
      Prog.wp_of_ret (allocPage_nil hempty), store, Prog.wp_bind, wp_onPhys, Prog.wp_modify]
    exact wp_noInfo hempty fun _ => by simp [hfl₁, hfl₂, hnil]
  refine wp_assign fun s₃' hs₃' => ?_
  have hf₃' : FreeList s₃'.phys fl₃ := hs₃' ▸ hf₃
  refine wp_allocPage hf₃' (fun hnil hempty => ?_) fun us fl₄ g₄ s₄ hfl₄ hf₄ hs₄ => ?_
  · rw [store, Prog.wp_bind, wp_onPhys, Prog.wp_modify]
    exact wp_noInfo hempty fun _ => by simp [hfl₁, hfl₂, hfl₃, hnil]
  refine wp_put fun s₄' hs₄' => ?_
  have htf : tf ∉ fl₄ := by
    rw [hfl₁, hfl₂, hfl₃, hfl₄] at hnodup
    exact fun hm => (List.nodup_cons.mp hnodup).1 (by simp [hm])
  have hf₄' : FreeList s₄'.phys fl₄ := by
    rw [hs₄']
    refine hf₄.frame rfl fun q hq => store64_of_ne ?_
    rw [frameSlot_ppn]
    rintro rfl
    exact htf hq
  refine wp_takePage hf₄' le_rfl (fun hnil _ => by simp [hfl₁, hfl₂, hfl₃, hfl₄, hnil])
    fun mi fl₅ g₅ s₅ hfl₅ hf₅ hs₅ => ?_
  refine ⟨tf, pt, ks, us, mi, fl₅, g₅, rfl, by rw [hfl₁, hfl₂, hfl₃, hfl₄, hfl₅], ?_, hf₅⟩
  subst hs₁ hs₂ hs₃ hs₃' hs₄ hs₄' hs₅
  simp [takenState, takenMem, withPages]

theorem taken_built {s₀ ph : Phys} {tf pt ks us mi : Ppn}
    (h : FreeList s₀ (tf :: pt :: ks :: us :: mi :: fl))
    (hmem : ph.mem = takenMem s₀.mem tf pt mi) (hfree : FreeList ph fl)
    (hbounds : ph.freeMemStartAddr = s₀.freeMemStartAddr ∧
      ph.freeMemEndAddr = s₀.freeMemEndAddr) :
    Built s₀ (tf :: pt :: ks :: us :: mi :: fl) pt {tf, ks, us, mi} ph fl ∧
      (∀ v, translate ph.mem pt v = none) ∧ NoSpareTables ph.mem pt := by
  have hnodup := h.nodup
  simp only [List.nodup_cons, List.mem_cons, not_or] at hnodup
  obtain ⟨⟨htp, -, -, -, -⟩, ⟨hpk, hpu, hpm, hpfl⟩, -, -, -⟩ := hnodup
  have hempty : ∀ k, ph.mem pt k = 0 := fun k => by
    rw [hmem, takenMem_table _ (Ne.symm htp) hpm]
  have hother : ∀ q, q ≠ tf → q ≠ pt → q ≠ mi → ph.mem q = s₀.mem q := fun q h1 h2 h3 => by
    rw [hmem, takenMem_of_ne _ h1 h2 h3]
  clear hmem
  have hinv : ∀ k, ptePage (ph.mem pt k) = none := fun k =>
    ptePage_of_invalid (by rw [hempty k]; rfl)
  have hnil : nodes ptePage ph.mem 2 ∅ = ∅ :=
    Set.eq_empty_of_forall_notMem fun _ ⟨_, hr, _⟩ => hr
  have hpages : tablePages ph.mem {pt} = {pt} := by
    rw [← insert_empty_eq pt]
    exact (nodes_insert_of_empty hinv).trans (by rw [hnil])
  refine ⟨⟨h, ?_, ⟨[tf, pt, ks, us, mi], rfl, fun p => ?_⟩, ?_, fun p hp => ?_,
    hbounds⟩, fun v => leafAt_of_empty hinv _ _, fun π _ hne hnode => ?_⟩
  · rw [← insert_empty_eq pt]
    refine (Tables.empty hfree).insert_of_empty hempty ?_ hpfl (h.ne_zero (by simp))
    rintro ⟨_, hr, _⟩
    exact hr
  · rw [hpages]
    simp only [List.mem_cons, List.not_mem_nil, or_false, Set.mem_singleton_iff,
      Set.mem_insert_iff]
    exact or_left_comm
  · rw [hpages]
    rintro p (rfl | rfl | rfl | rfl) hp
    · exact htp hp
    · exact hpk hp.symm
    · exact hpu hp.symm
    · exact hpm hp.symm
  · simp only [List.mem_cons, not_or] at hp
    exact hother p hp.1 hp.2.1 hp.2.2.2.2.1
  · obtain ⟨q, hq⟩ := Option.ne_none_iff_exists'.mp hnode
    exact absurd ((nodeAt_of_empty hinv).mp hq).1 hne

/-! ## Mapping and recording the regions -/

/-- On the way: the entries of the page table are `leaves`, and the list of regions reads
    as in the memory `m`. -/
structure Filling (s₀ : Phys) (fl₀ : List Ppn) (pt : Ppn) (D : Set Ppn) (a : AddrSpace)
    (leaves : Vpn → Option Word) (m : Mem) (s : Phys) (fl : List Ppn) : Prop where
  built : Built s₀ fl₀ pt D s fl
  leaf : ∀ v, translate s.mem pt v = leaves v
  info : s.mem (a.own .info) = m (a.own .info)
  full : NoSpareTables s.mem pt

namespace Filling

variable {s₀ ph ph' : Phys} {fl₀ : List Ppn} {pt : Ppn} {D : Set Ppn} {a : AddrSpace}
  {leaves : Vpn → Option Word} {m : Mem} {va pa perm : Word}

theorem map (h : Filling s₀ fl₀ pt D a leaves m ph fl) (hinfo : a.own .info ∈ D)
    (hva : va % PGSIZE = 0) (hmap : BuiltMap s₀ fl₀ pt D va pa perm ph fl ph' fl') :
    Filling s₀ fl₀ pt D a (Function.update leaves (vpn va) (some (mkPte pa perm))) m ph' fl' := by
  obtain ⟨-, hone⟩ := hmap.one hva
  refine ⟨hmap.built, fun v => ?_, (hmap.data _ hinfo).trans h.info, hmap.noSpareTables h.full⟩
  rw [hone.leaf pt (Set.mem_singleton pt), Function.update_apply, h.leaf]
  simp

theorem record (h : Filling s₀ fl₀ pt D a leaves m ph fl) (ha : a.Aligned)
    (hinfo : a.own .info ∈ D) {k : ℕ} (hk : k < 256) (npages : BitVec 32) (seg : SegType) :
    Filling s₀ fl₀ pt D a leaves (recordRegion m a k va npages seg)
      { ph with mem := recordRegion ph.mem a k va npages seg } fl := by
  have hne : ∀ q, q ∉ D → recordRegion ph.mem a k va npages seg q = ph.mem q := fun q hq =>
    recordRegion_of_ne ha hk (by rintro rfl; exact hq hinfo)
  exact ⟨h.built.write hne, fun v => (h.built.translate_write hne v).trans (h.leaf v),
    recordRegion_congr ha hk h.info, h.built.noSpareTables_write hne h.full⟩

/-- Mapping a page and recording it as a region. -/
theorem wp_fill {β : Type} {R : β → Kernel → Prop} {E : Kernel → Prop} {H : Halt → Prop}
    {npages : BitVec 32} {seg : SegType} {n : ℕ} {k : Unit → KernelM β}
    (h : Filling s₀ fl₀ a.root D a leaves m s.phys fl) (ha : a.Aligned) (hinfo : a.own .info ∈ D)
    (hva : va % PGSIZE = 0) (hn : n < 256)
    (hk : ∀ s' ph fl', PhysOnly s s' → BuiltMap s₀ fl₀ a.root D va pa perm s.phys fl ph fl' →
      s'.phys = { ph with mem := recordRegion ph.mem a n va npages seg } →
      Filling s₀ fl₀ a.root D a (Function.update leaves (vpn va) (some (mkPte pa perm)))
        (recordRegion m a n va npages seg) s'.phys fl' →
      leaves (vpn va) = none → fl.length ≤ fl'.length + 2 → Prog.wp (k ()) R E H s')
    (hH : ∀ e, ¬ (va < MAXVA ∧ leaves (vpn va) = none ∧
      tablesNeeded s.phys.mem a.root (va.toNat / 4096) 1 ≤ fl.length) → H e) :
    Prog.wp (onPhys (userVmMap (addr a.root) va PGSIZE pa perm) >>= fun _ =>
      onPhys (storeRegion (regionAddr a.mappedInfo n) va npages seg) >>= k) R E H s := by
  refine wp_phys (h.built.map_aligned hva) ?_ fun e hno => hH e fun hok => hno ?_
  · rintro _ s₁ hs₁ ⟨fl', hmap⟩
    have hlen := hmap.length
    have hneed := tablesNeeded_le s.phys.mem a.root (va.toNat / 4096) 1
    rw [mapCount_of_aligned hva] at hlen
    have hnone := (hmap.one hva).2.unmapped
    rw [h.leaf] at hnone
    refine wp_storeRegion (a := a) fun s₂ hs₂ hrec => ?_
    exact hk s₂ s₁.phys fl' (hs₁.trans hs₂) hmap hrec
      (hrec ▸ (h.map hinfo hva hmap).record ha hinfo hn _ _) hnone (by omega)
  · rw [h.leaf]
    exact hok

end Filling

/-- The list of regions with the three that `alloc_process` records. -/
def initialInfo (L : Layout) (a : AddrSpace) (m : Mem) : Mem :=
  recordRegion (recordRegion (recordRegion m a 0 (USER_STACK_TOP - PGSIZE) 1 .STACK)
    a 1 a.trapframe 1 .CONTEXT) a 2 L.trapSecStart 1 .SYSTEM

theorem update_initialLeaf (L : Layout) (a : AddrSpace) (us : Ppn) :
    (Function.update (Function.update (Function.update (fun _ => none) stackVpn
      (some (mkPte (addr us) userDataPerm))) (vpn a.trapframe)
      (some (mkPte a.trapframe trapframePerm))) (vpn L.trapSecStart)
      (some (mkPte L.trapSecStart trapSecPerm)) : Vpn → Option Word) = initialLeaf L a us := by
  funext v
  simp only [initialLeaf, Function.update_apply]

/-- The trapframe lies behind the trap section, in the memory of the machine. -/
def AboveTrapSec (L : Layout) (tf : Word) : Prop := L.trapSecStart < tf ∧ tf < PHYS_TOP

theorem AboveTrapSec.toNat {tf : Word} (h : AboveTrapSec L tf) :
    2 ^ 31 ≤ L.trapSecStart.toNat ∧ L.trapSecStart.toNat < tf.toNat ∧ tf.toNat < 0x88000000 := by
  have h0 := L.base_le_trapSec
  obtain ⟨h1, h2⟩ := h
  rw [BitVec.le_def] at h0
  rw [BitVec.lt_def] at h1 h2
  exact ⟨h0, h1, h2⟩

theorem px_two_kernel {va : Word} (hlo : 2 ^ 31 ≤ va.toNat) (hhi : va.toNat < 0x88000000) :
    px 2 (vpn va) = 2 := by
  apply BitVec.eq_of_toNat_eq
  rw [px, BitVec.extractLsb'_toNat, Nat.shiftRight_eq_div_pow, vpn_toNat (by omega),
    show (2 : Idx).toNat = 2 from rfl]
  omega

/-- The table of the last level for the trap section is the page taken last, when the
    trapframe is not in the same 2 MiB. -/
def TrapSecLast (L : Layout) (a : AddrSpace) (fl : List Ppn) (s' : Phys) (fl' : List Ppn) : Prop :=
  AboveTrapSec L a.trapframe → px 1 (vpn a.trapframe) ≠ px 1 (vpn L.trapSecStart) →
    ∃ new q, fl = new ++ q :: fl' ∧
      nodeAt ptePage s'.mem a.root (vpath 2 (vpn L.trapSecStart)) = some q

/-- Mapping the trap section adds its table of the last level and no other. -/
theorem Filling.trapSec_table {s₀ ph ph' : Phys} {fl₀ : List Ppn} {D : Set Ppn} {a : AddrSpace}
    {leaves : Vpn → Option Word} {m : Mem} {pa perm : Word}
    (h : Filling s₀ fl₀ a.root D a leaves m ph fl) (habove : AboveTrapSec L a.trapframe)
    (hne : px 1 (vpn a.trapframe) ≠ px 1 (vpn L.trapSecStart))
    (hleaves : ∀ v, leaves v ≠ none → v = stackVpn ∨ v = vpn a.trapframe)
    (hneed : tablesNeeded ph.mem a.root (L.trapSecStart.toNat / 4096) 1 ≤ 1)
    (hmap : BuiltMap s₀ fl₀ a.root D L.trapSecStart pa perm ph fl ph' fl') :
    ∃ q, fl = q :: fl' ∧ nodeAt ptePage ph'.mem a.root (vpath 2 (vpn L.trapSecStart)) = some q := by
  refine hmap.last_table L.trapSec_aligned ?_ hneed
  by_contra hnode
  obtain ⟨v, hv, hpre⟩ := h.full _ (vpath_length 2 _).le (by simp [vpath]) hnode
  have hpath := hpre.eq_of_length (by rw [vpath_length, vpath_length])
  simp only [vpath, List.cons.injEq, and_true] at hpath
  rw [h.leaf] at hv
  rcases hleaves v hv with rfl | rfl
  · have htfN := habove.toNat
    rw [px_two_kernel (by omega) (by omega)] at hpath
    exact absurd hpath.1 (by decide)
  · exact hne hpath.2.symm

/-- The trap section shares the table of the second level with the trapframe. -/
theorem Filling.trapSec_needed {s₀ ph : Phys} {fl₀ : List Ppn} {D : Set Ppn} {a : AddrSpace}
    {leaves : Vpn → Option Word} {m : Mem} (h : Filling s₀ fl₀ a.root D a leaves m ph fl)
    (habove : AboveTrapSec L a.trapframe) (hleaf : leaves (vpn a.trapframe) ≠ none) :
    tablesNeeded ph.mem a.root (L.trapSecStart.toNat / 4096) 1 ≤ 1 := by
  have htfN := habove.toNat
  have hvpn : vpnOf (L.trapSecStart.toNat / 4096) = vpn L.trapSecStart := by
    symm
    rw [eq_vpnOf_iff (by omega), vpn_toNat (by omega)]
  refine tablesNeeded_le_one ?_
  rw [hvpn, px_two_kernel (by omega) (by omega), ← @px_two_kernel a.trapframe
    (by omega) (by omega)]
  refine second_of_translate ?_
  rw [h.leaf]
  exact hleaf

/-- `mapInitial` fills the address space. -/
theorem mapInitial_built {s₀ : Phys} {fl₀ : List Ppn} {D : Set Ppn} {a : AddrSpace} {m : Mem}
    {us : Ppn} (hproc : (s.procs i).space = a) (ha : a.Aligned) (hinfo : a.own .info ∈ D)
    (h : Filling s₀ fl₀ a.root D a (fun _ => none) m s.phys fl) :
    Prog.wp (mapInitial L i (addr us))
      (fun _ s' => ∃ fl', s' = { s with
          phys := s'.phys
          procs := Function.update s.procs i { s.procs i with totalMappedRegion := 3 }
          console := s'.console } ∧
        Filling s₀ fl₀ a.root D a (initialLeaf L a us) (initialInfo L a m) s'.phys fl' ∧
        initialLeaf L a us stackVpn = some (mkPte (addr us) userDataPerm) ∧
        fl.length ≤ fl'.length + 6 ∧ TrapSecLast L a fl s'.phys fl')
      (fun _ => False) (fun _ => ¬ (AboveTrapSec L a.trapframe ∧ 5 ≤ fl.length)) s := by
  have hpt : (s.procs i).pagetable = addr a.root :=
    (congrArg AddrSpace.pagetable hproc).trans ha.pagetable.symm
  have htf : (s.procs i).trapframe = a.trapframe := congrArg AddrSpace.trapframe hproc
  have hmi : (s.procs i).mappedInfo = a.mappedInfo := congrArg AddrSpace.mappedInfo hproc
  have htfal : a.trapframe % PGSIZE = 0 := by rw [← ha.trapframe]; exact addr_mod _
  have hstackN := toNat_stack
  unfold mapInitial
  rw [proc, Prog.wp_bind, Prog.wp_gets, hpt, htf, hmi]
  -- the user stack
  refine h.wp_fill ha hinfo (by decide) (by omega) ?_ fun _ hn hok => ?_
  rotate_left
  · have hneed := tablesNeeded_le s.phys.mem a.root ((USER_STACK_TOP - PGSIZE).toNat / 4096) 1
    exact hn ⟨by decide, rfl, by omega⟩
  intro s₁ ph₁ fl₁ hs₁ hmap₁ _ h₁ _ hlen₁
  -- the trapframe
  refine h₁.wp_fill ha hinfo htfal (by omega) ?_ fun _ hn hok => ?_
  rotate_left
  · have hneed := tablesNeeded_le s₁.phys.mem a.root (a.trapframe.toNat / 4096) 1
    have htfN := hok.1.toNat
    refine hn ⟨lt_MAXVA (by omega), ?_, by omega⟩
    rw [Function.update_of_ne (vpn_ne (by omega) (by omega) (by omega))]
  intro s₂ ph₂ fl₂ hs₂ hmap₂ _ h₂ hnone₂ hlen₂
  have hne₂ : stackVpn ≠ vpn a.trapframe := by
    intro heq
    rw [← heq, Function.update_self] at hnone₂
    cases hnone₂
  have hneed : AboveTrapSec L a.trapframe →
      tablesNeeded s₂.phys.mem a.root (L.trapSecStart.toNat / 4096) 1 ≤ 1 := fun habove =>
    h₂.trapSec_needed habove (by rw [Function.update_self]; exact Option.some_ne_none _)
  -- the trap section
  refine h₂.wp_fill ha hinfo L.trapSec_aligned (by omega) ?_ fun _ hn hok => ?_
  rotate_left
  · have htfN := hok.1.toNat
    have hal := toNat_mod_PGSIZE L.trapSec_aligned
    have hal' := toNat_mod_PGSIZE htfal
    have hneed' := hneed hok.1
    refine hn ⟨lt_MAXVA (by omega), ?_, by omega⟩
    rw [Function.update_of_ne (vpn_ne (by omega) (by omega) (by omega)),
      Function.update_of_ne (vpn_ne (by omega) (by omega) (by omega))]
  intro s₃ ph₃ fl₃ hs₃ hmap₃ hrec₃ h₃ hnone₃ hlen₃
  have hne₃ : stackVpn ≠ vpn L.trapSecStart := by
    intro heq
    rw [← heq, Function.update_of_ne hne₂, Function.update_self] at hnone₃
    cases hnone₃
  rw [update_initialLeaf] at h₃
  have hlast : TrapSecLast L a fl s₃.phys fl₃ := by
    intro habove hne
    obtain ⟨q, hfl, hq⟩ := h₂.trapSec_table habove hne (fun v hv => by
      rw [Function.update_apply, Function.update_apply] at hv
      split_ifs at hv with h1 h2
      · exact Or.inr h1
      · exact Or.inl h2
      · exact absurd rfl hv) (hneed habove) hmap₃
    obtain ⟨new₁, hnew₁, -⟩ := (hmap₁.one (by decide)).2.grow.popped
    obtain ⟨new₂, hnew₂, -⟩ := (hmap₂.one htfal).2.grow.popped
    refine ⟨new₁ ++ new₂, q, ?_, ?_⟩
    · rw [hnew₁, hnew₂, hfl, List.append_assoc]
    · refine Eq.trans ?_ hq
      rw [hrec₃]
      refine nodeAt_congr (n := 2) (Set.mem_singleton _) (fun p hp => ?_) _ (by simp)
      refine recordRegion_of_ne ha (by omega) ?_
      rintro rfl
      exact hmap₃.built.apart _ hinfo hp
  have honly := (hs₁.trans hs₂).trans hs₃
  rw [Prog.wp_bind, wp_onPhys, load, Prog.wp_gets, sprint, Prog.wp_bind, Prog.wp_modify, setProc,
    Prog.wp_modify]
  refine ⟨fl₃, ?_, h₃, by rw [initialLeaf, if_neg hne₃, if_neg hne₂, if_pos rfl], by omega, hlast⟩
  clear hneed hlast h₁ h₂ h₃ hs₁ hs₂ hs₃ hrec₃ hmap₁ hmap₂ hmap₃
  unfold PhysOnly at honly
  generalize s₃.phys = ph at honly
  subst honly
  rfl

/-! ## `alloc_process` -/

theorem initialInfo_congr {a : AddrSpace} (ha : a.Aligned) {m m' : Mem}
    (hm : m' (a.own .info) = m (a.own .info)) :
    initialInfo L a m' (a.own .info) = initialInfo L a m (a.own .info) :=
  recordRegion_congr ha (by omega)
    (recordRegion_congr ha (by omega) (recordRegion_congr ha (by omega) hm))

/-- What `alloc_process` leaves behind: slot `i` has the trapframe `tf`, the page table
    `pt`, the kernel stack `ks`, the user stack `us` and the list of regions `mi`. -/
structure Made (L : Layout) (s : Kernel) (fl : List Ppn) (i : Pid) (tf pt ks us mi : Ppn)
    (s' : Kernel) (fl' : List Ppn) : Prop where
  rest : s' = { s with
    phys := s'.phys
    procs := Function.update s.procs i
      { withPages (s.procs i) tf pt ks mi with totalMappedRegion := 3 }
    console := s'.console }
  list : ∃ new, fl = tf :: pt :: ks :: us :: mi :: new
  filling : Filling s.phys fl pt {tf, ks, us, mi} (withPages (s.procs i) tf pt ks mi).space
    (initialLeaf L (withPages (s.procs i) tf pt ks mi).space us)
    (initialInfo L (withPages (s.procs i) tf pt ks mi).space fun _ _ => 0) s'.phys fl'
  stack : initialLeaf L (withPages (s.procs i) tf pt ks mi).space us stackVpn =
    some (mkPte (addr us) userDataPerm)
  length : fl.length ≤ fl'.length + 11
  last : TrapSecLast L (withPages (s.procs i) tf pt ks mi).space fl s'.phys fl'

section Made

variable {tf pt ks us mi : Ppn}

theorem Made.procs (h : Made L s fl i tf pt ks us mi s' fl') :
    s'.procs = Function.update s.procs i
      { withPages (s.procs i) tf pt ks mi with totalMappedRegion := 3 } :=
  congrArg Kernel.procs h.rest

theorem Made.space (h : Made L s fl i tf pt ks us mi s' fl') :
    (s'.procs i).space = ⟨addr ks + PGSIZE, addr pt, addr tf, addr mi⟩ := by
  rw [h.procs, Function.update_self]
  rfl

theorem Made.other (h : Made L s fl i tf pt ks us mi s' fl') {j : Pid} (hj : j ≠ i) :
    s'.procs j = s.procs j := by
  rw [h.procs, Function.update_of_ne hj]

end Made

theorem initVmSpace_made (h : FreeList s.phys fl) :
    Prog.wp (initVmSpace L i)
      (fun _ s' => ∃ tf pt ks us mi fl', Made L s fl i tf pt ks us mi s' fl') (fun _ => False)
      (fun _ => ¬ (10 ≤ fl.length ∧ ∀ p ∈ fl, AboveTrapSec L (addr p))) s := by
  unfold initVmSpace
  rw [Prog.wp_bind]
  refine Prog.wp_mono (takePages_cases h) ?_ (fun _ h => h) fun _ hlt hok => by omega
  rintro _ s₁ ⟨tf, pt, ks, us, mi, fl₁, g, rfl, hfl, hs₁, hfree₁⟩
  have hmem : s₁.phys.mem = takenMem s.phys.mem tf pt mi := by rw [hs₁, takenState]
  have hprocs : s₁.procs = Function.update s.procs i (withPages (s.procs i) tf pt ks mi) := by
    rw [hs₁, takenState]
  have hrest : s₁ = { s with phys := s₁.phys, procs := s₁.procs } := by rw [hs₁, takenState]
  have hbounds : s₁.phys.freeMemStartAddr = s.phys.freeMemStartAddr ∧
      s₁.phys.freeMemEndAddr = s.phys.freeMemEndAddr := by
    rw [hs₁, takenState]
    exact ⟨rfl, rfl⟩
  clear hs₁
  subst hfl
  obtain ⟨hbuilt, hnone, hfull⟩ := taken_built h hmem hfree₁ hbounds
  have hinfo : s₁.phys.mem mi = fun _ => 0 := by rw [hmem, takenMem_info]
  have ha := withPages_aligned (s.procs i) tf pt ks mi
  have hown := withPages_own (s.procs i) tf pt ks mi .info
  have hroot := withPages_root (s.procs i) tf pt ks mi
  have hproc : (s₁.procs i).space = (withPages (s.procs i) tf pt ks mi).space := by
    rw [hprocs, Function.update_self]
  have hD : (withPages (s.procs i) tf pt ks mi).space.own .info ∈ ({tf, ks, us, mi} : Set Ppn) := by
    rw [hown]
    simp
  have hfill : Filling s.phys (tf :: pt :: ks :: us :: mi :: fl₁)
      (withPages (s.procs i) tf pt ks mi).space.root {tf, ks, us, mi}
      (withPages (s.procs i) tf pt ks mi).space (fun _ => none) s₁.phys.mem s₁.phys fl₁ := by
    rw [hroot]
    exact ⟨hbuilt, hnone, rfl, hfull⟩
  refine Prog.wp_mono (mapInitial_built hproc ha hD hfill) ?_ (fun _ h => h) fun _ hn hok => ?_
  · rintro _ s' ⟨fl', hs', hfill', hstack, hlen, hlast⟩
    rw [hroot] at hfill'
    have hinfo' := @initialInfo_congr L _ ha (fun _ _ => 0) s₁.phys.mem
      (by rw [hown]; exact hinfo)
    refine ⟨tf, pt, ks, us, mi, fl', ?_, ⟨fl₁, rfl⟩, ⟨hfill'.built, hfill'.leaf,
      hfill'.info.trans hinfo', hfill'.full⟩, hstack, by simpa using hlen, fun habove hne => ?_⟩
    swap
    · obtain ⟨new, q, hnew, hq⟩ := hlast habove hne
      exact ⟨tf :: pt :: ks :: us :: mi :: new, q, by rw [hnew]; rfl, hq⟩
    rw [hprocs, Function.update_idem, Function.update_self] at hs'
    rw [hs', hrest]
  · refine hn ⟨hok.2 tf (by simp), ?_⟩
    have := hok.1
    simp only [List.length_cons] at this
    omega

theorem allocProcess_made (h : FreeList s.phys fl) :
    Prog.wp (allocProcess L)
      (fun i s' => (s.procs i).status = .FREE ∧
        ∃ tf pt ks us mi fl', Made L s fl i tf pt ks us mi s' fl') (fun _ => False)
      (fun _ => ¬ ((∃ j, (s.procs j).status = .FREE) ∧ 10 ≤ fl.length ∧
        ∀ p ∈ fl, AboveTrapSec L (addr p))) s := by
  unfold allocProcess
  rw [Prog.wp_bind, Prog.wp_gets]
  cases hfirst : firstFree s.procs with
  | none =>
    rintro ⟨⟨j, hj⟩, -⟩
    have := List.find?_eq_none.mp hfirst j (List.mem_finRange j)
    simp [hj] at this
  | some i =>
    have hstatus : (s.procs i).status = .FREE := by simpa using List.find?_some hfirst
    dsimp only
    rw [Prog.wp_bind]
    exact Prog.wp_mono (initVmSpace_made h) (fun _ _ h => ⟨hstatus, h⟩) (fun _ h => h)
      fun _ h hok => h hok.2

/-- The address space maps the user stack, the trapframe and the trap section, three
    different pages, and nothing else. -/
structure MinimalSpace (L : Layout) (m : Mem) (root tf us : Ppn) : Prop where
  distinct : [stackVpn, vpn (addr tf), vpn L.trapSecStart].Nodup
  mapped : ∀ v, translate m root v ≠ none ↔ v ∈ [stackVpn, vpn (addr tf), vpn L.trapSecStart]
  stack : ∃ e, translate m root stackVpn = some e ∧ Grants e us (PTE_R ||| PTE_W ||| PTE_U)
  trapframe : ∃ e, translate m root (vpn (addr tf)) = some e ∧ Grants e tf (PTE_R ||| PTE_W)
  trapSec : ∃ e, translate m root (vpn L.trapSecStart) = some e ∧
    Grants e (ppn L.trapSecStart) (PTE_R ||| PTE_X)

theorem minimalSpace_of_leaf {m : Mem} {root tf us : Ppn} {a : AddrSpace}
    (htf : a.trapframe = addr tf) (habove : AboveTrapSec L (addr tf))
    (hleaf : ∀ v, translate m root v = initialLeaf L a us v) : MinimalSpace L m root tf us := by
  have hN := habove.toNat
  have hstackN := toNat_stack
  have hal := toNat_mod_PGSIZE L.trapSec_aligned
  have hal' := toNat_mod_PGSIZE (addr_mod tf)
  have h1 : stackVpn ≠ vpn (addr tf) := vpn_ne (by omega) (by omega) (by omega)
  have h2 : stackVpn ≠ vpn L.trapSecStart := vpn_ne (by omega) (by omega) (by omega)
  have h3 : vpn (addr tf) ≠ vpn L.trapSecStart := vpn_ne (by omega) (by omega) (by omega)
  have hgrant := fun prot user pa => grants_mkPte pa prot user
  simp only [initialLeaf, htf] at hleaf
  refine ⟨by simp [h1, h2, h3], fun v => ?_, ⟨mkPte (addr us) userDataPerm, ?_, ?_⟩,
    ⟨mkPte (addr tf) trapframePerm, ?_, ?_⟩, ⟨mkPte L.trapSecStart trapSecPerm, ?_, ?_⟩⟩
  · rw [hleaf]
    split_ifs <;> simp [*]
  · rw [hleaf, if_neg h2, if_neg h1, if_pos rfl]
  · have := hgrant (PROT_WRITE ||| PROT_READ) 1 (addr us)
    rwa [ppn_addr] at this
  · rw [hleaf, if_neg h3, if_pos rfl]
  · have := hgrant (PROT_WRITE ||| PROT_READ) 0 (addr tf)
    rwa [ppn_addr] at this
  · rw [hleaf, if_pos rfl]
  · exact hgrant (PROT_READ ||| PROT_EXEC) 0 L.trapSecStart

/-- The tables of the new page table: its root and the pages behind the first five. -/
theorem Made.tables {tf pt ks us mi : Ppn} (h : Made L s fl i tf pt ks us mi s' fl') :
    ∃ tabs, fl = tf :: pt :: ks :: us :: mi :: (tabs ++ fl') ∧
      tablePages s'.phys.mem {pt} = insert pt {p | p ∈ tabs} := by
  obtain ⟨rest, hfl⟩ := h.list
  obtain ⟨new, hfl', hnew⟩ := h.filling.built.taken
  have hnodup := h.filling.built.free.nodup
  have hpt : pt ∈ tablePages s'.phys.mem {pt} := root_mem_nodes rfl
  have hapart := h.filling.built.apart
  have happend : [tf, pt, ks, us, mi] ++ rest = new ++ fl' := hfl.symm.trans hfl'
  have hfive : ∀ p ∈ [tf, pt, ks, us, mi], p ∈ new := by
    intro p hp
    rw [hnew]
    simp only [List.mem_cons, List.not_mem_nil, or_false] at hp
    rcases hp with rfl | rfl | rfl | rfl | rfl
    · simp
    · exact Or.inl hpt
    · simp
    · simp
    · simp
  -- the pages taken start with these five
  obtain ⟨tabs, hnew', hrest⟩ :
      ∃ tabs, new = [tf, pt, ks, us, mi] ++ tabs ∧ rest = tabs ++ fl' := by
    rcases List.append_eq_append_iff.mp happend with ⟨tabs, h1, h2⟩ | ⟨extra, h1, h2⟩
    · exact ⟨tabs, h1, h2⟩
    · cases extra with
      | nil => exact ⟨[], by simpa using h1.symm, by simpa using h2.symm⟩
      | cons p extra =>
        have hmem : p ∈ new := hfive p (h1 ▸ by simp)
        rw [hfl'] at hnodup
        exact absurd (h2 ▸ List.mem_append_left _ List.mem_cons_self)
          (List.disjoint_of_nodup_append hnodup hmem)
  refine ⟨tabs, by rw [hfl, hrest], Set.ext fun p => ?_⟩
  have hdisj : ∀ q ∈ tabs, q ∉ [tf, pt, ks, us, mi] := by
    intro q hq hq'
    rw [hfl', hnew', List.append_assoc] at hnodup
    exact List.disjoint_of_nodup_append hnodup hq' (List.mem_append_left _ hq)
  have hp := hnew p
  rw [hnew'] at hp
  simp only [List.mem_append, List.mem_cons, List.not_mem_nil, or_false, Set.mem_insert_iff,
    Set.mem_singleton_iff, Set.mem_ofPred_eq] at hp hdisj hapart ⊢
  constructor
  · intro hm
    rcases hp.mpr (Or.inl hm) with (rfl | rfl | rfl | rfl | rfl) | ht
    · exact absurd hm (hapart p (by simp))
    · exact Or.inl rfl
    · exact absurd hm (hapart p (by simp))
    · exact absurd hm (hapart p (by simp))
    · exact absurd hm (hapart p (by simp))
    · exact Or.inr ht
  · rintro (rfl | ht)
    · exact hpt
    · refine (hp.mp (Or.inr ht)).resolve_right fun hD => hdisj p ht ?_
      exact hD.imp_right Or.inr

/-- **`alloc_process` builds exactly the minimal address space.** With a FREE slot and ten
    free pages behind the trap section, it takes five pages and the tables off the head of
    the free list, for a page table with three mappings, and changes nothing else. -/
theorem allocProcess_minimal (hslot : ∃ j, (s.procs j).status = .FREE) (hfree : FreeList s.phys fl)
    (hlen : 10 ≤ fl.length) (hpages : ∀ p ∈ fl, AboveTrapSec L (addr p)) :
    ∃ i s' tf root ks us mi tabs fl', allocProcess L s = .ret i s' ∧
      (s.procs i).status = .FREE ∧
      (s'.procs i).space = ⟨addr ks + PGSIZE, addr root, addr tf, addr mi⟩ ∧
      fl = [tf, root, ks, us, mi] ++ tabs ++ fl' ∧ ([tf, root, ks, us, mi] ++ tabs).Nodup ∧
      FreeList s'.phys fl' ∧ Forest ptePage s'.phys.mem 2 {root} ∧
      tablePages s'.phys.mem {root} = insert root {p | p ∈ tabs} ∧
      MinimalSpace L s'.phys.mem root tf us ∧
      (∀ j, j ≠ i → s'.procs j = s.procs j) ∧ (∀ p, p ∉ fl → s'.phys.mem p = s.phys.mem p) ∧
      ∀ r, (∀ q ∈ tablePages s.phys.mem {r}, q ∉ fl) →
        ∀ v, translate s'.phys.mem r v = translate s.phys.mem r v := by
  obtain ⟨i, s', hrun, hstatus, tf, root, ks, us, mi, fl', hmade⟩ :=
    Prog.returns_of_wp (allocProcess_made hfree) fun _ hn => hn ⟨hslot, hlen, hpages⟩
  obtain ⟨tabs, hfl, htabs⟩ := hmade.tables
  have hbuilt := hmade.filling.built
  have hnodup := hbuilt.free.nodup
  have happend : fl = [tf, root, ks, us, mi] ++ tabs ++ fl' := by simpa using hfl
  rw [happend] at hnodup
  exact ⟨i, s', tf, root, ks, us, mi, tabs, fl', hrun, hstatus, hmade.space, happend,
    (List.nodup_append.mp hnodup).1, hbuilt.tables.free, hbuilt.tables.forest, htabs,
    minimalSpace_of_leaf rfl (hpages tf (by simp [hfl])) hmade.filling.leaf,
    fun j hji => hmade.other hji, hbuilt.frame, fun r hr v => hbuilt.translate_off hr v⟩

/-- A machine with 127 free pages behind the kernel image. -/
theorem exists_sampleFree : ∃ ph, FreeList ph (pagesDown 0x80010 127) := by
  obtain ⟨m, g, -, hfree, -⟩ := @createFreepageList_spec
    ⟨fun _ _ => 0, 0, 0x80010000, 0x80090000⟩ 0x80010000 0x80090000 (by decide) (by decide)
    (by decide) (by decide)
    (by decide) (by decide)
  exact ⟨_, hfree⟩

theorem aboveTrapSec_sample : ∀ p ∈ pagesDown 0x80010 127, AboveTrapSec sampleLayout (addr p) := by
  intro p hp
  have hp' := (mem_pagesDown (by decide)).mp hp
  rw [show (0x80010 : Ppn).toNat = 0x80010 from rfl] at hp'
  constructor
  · rw [BitVec.lt_def, addr_toNat, show sampleLayout.trapSecStart.toNat = 0x80001000 from rfl]
    omega
  · rw [BitVec.lt_def, addr_toNat, show PHYS_TOP.toNat = 0x88000000 from rfl]
    omega

theorem allocProcess_minimal_sample : ∃ s fl i s', FreeList s.phys fl ∧ 10 ≤ fl.length ∧
    allocProcess sampleLayout s = .ret i s' := by
  obtain ⟨ph, hfree⟩ := exists_sampleFree
  obtain ⟨i, s', -, -, -, -, -, -, -, hrun, -⟩ :=
    allocProcess_minimal (L := sampleLayout) (s := { powerOn 0 with phys := ph }) ⟨0, rfl⟩ hfree
      (by simp) aboveTrapSec_sample
  exact ⟨_, _, i, s', hfree, by simp, hrun⟩

end Pke
