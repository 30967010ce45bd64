import Pke.Build.Exposed
import Pke.Runs.Identities

/-!
# A process that overwrites the process table

`elf_load` maps a table of the page table of an application whose first segment
does not start at a page boundary. The application writes into the table an
entry for the page of the kernel image that holds `procs[]`, and through it the
`pid` of a slot (`pid_overwritten`). So process identities are kept only when
segments lie at addresses of pages.
-/

namespace Pke

open Lib Radix

variable {L : Layout} {P : Placement L} {c : Pid} {u v : Vpn} {w e : Word} {s s' s₀ : Kernel}
  {tr : List (Action × Kernel)} {m : Mem}

/-! ## Mapping a page of the kernel image -/

/-- A run in which user code may do anything. -/
abbrev FreeRun (P : Placement L) (s₀ s : Kernel) : Prop :=
  ∃ tr, StaticRun P (fun _ _ => True) s₀ tr s

/-- The process sets the entry by stores. -/
theorem TableWindow.mapped (hx : TableWindow c u v w s) (himage : ¬ InImage L (ptePpn w))
    (hr : FreeRun P s₀ s) (e : Word) :
    FreeRun P s₀ { s with phys := writeLeaf s.phys (ptePpn w) v e } := by
  refine hx.write (R := FreeRun P s₀) (fun hcur hprocs hw hj hr hst => ?_) hr e
  obtain ⟨tr, hr⟩ := hr
  refine ⟨_, hr.snoc trivial (.store
    ((P.userStore_of_not_image _ hcur fun pa hpa => ?_).trans hst))⟩
  have hentry := userTranslate_entry (v := v) (s.procs c).pagetable hx.low hw hx.perm hj
  rw [hprocs, hentry] at hpa
  obtain rfl := Option.some.inj hpa
  rwa [ppn_addr_add _ (offset_lt _)]

/-- The window of an application that `s_start` has loaded, with the variables in memory. -/
theorem LoadedExposed.window (hx : LoadedExposed m s) (hcur : s.current = some 0)
    (ho : ImageOnly sampleLayout s s') :
    ∃ w, TableWindow 0 (vpnOf 0x11) (vpnOf 0x80000) w s' ∧ ¬ InImage sampleLayout (ptePpn w) := by
  obtain ⟨-, -, htab, fl, hx⟩ := hx
  obtain ⟨q, hq, hw⟩ := hx.table
  have hmem : ∀ p ∈ tablePages s.phys.mem {(s.procs 0).space.root},
      s'.phys.mem p = s.phys.mem p := fun p hp => ho.mem p (htab p hp)
  have hppn : ptePpn (mkPte (addr q) elfPerm) = q := elf_leaf_ppn q
  refine ⟨mkPte (addr q) elfPerm, ⟨?_, ?_, ?_, ?_, ?_, ?_, ?_⟩, ?_⟩
  · rw [ho.rest]
    exact hcur
  · rw [ho.procs]
    exact hx.served.tables.forest.frame hmem
  · rw [ho.procs, hppn, nodeAt_congr (Set.mem_singleton _) hmem _
      ((vpath_length 2 _).trans_le (by omega))]
    exact hq
  · have := hx.low
    omega
  · rw [ho.procs, translate_congr hmem (Set.mem_singleton _)]
    exact hw
  · rw [mkPte_and_flag _ _ (by decide)]
    decide
  · decide
  · rw [hppn]
    exact htab q (mem_nodes rfl (vpath_length 2 _).le hq)

/-! ## Writing the process table -/

/-- The entry for the page of `procs[]`. -/
def procsEntry : Word := mkPte samplePlacement.procs userDataPerm

/-- The address of `procs[31].pid` behind the entry. -/
def pidAddress : Word := 0x80000000 + 2520

/-- A store to `procs[31].pid` through the entry. -/
theorem userStore_pid (hcur : s.current = some 0)
    (hw : translate s.phys.mem (s.procs 0).space.root (vpnOf 0x80000) = some procsEntry)
    (hpid : load64 s.phys.mem (samplePlacement.place (.proc 31 .pid)) = 31) :
    ∃ s', samplePlacement.userStore pidAddress 7 s = some s' ∧ (s'.procs 31).pid = 7 := by
  have hpa : userTranslate s.phys.mem (s.procs 0).pagetable pidAddress PTE_W =
      some (samplePlacement.place (.proc 31 .pid)) := by
    rw [userTranslate, if_pos (by decide), show vpn pidAddress = vpnOf 0x80000 by decide]
    rw [show translate s.phys.mem (ppn (s.procs 0).pagetable) (vpnOf 0x80000) = some procsEntry
      from hw, Option.bind_some, if_pos (by decide)]
    decide
  generalize hm : store8 s.phys.mem (samplePlacement.place (.proc 31 .pid)) 7 = m
  have hword : load64 m (samplePlacement.place (.proc 31 .pid)) = 7 := by
    rw [← hm, store8, load64_store64, if_pos rfl, hpid]
    decide
  have hfind : samplePlacement.find (ppn (samplePlacement.place (.proc 31 .pid)))
      (idx (samplePlacement.place (.proc 31 .pid))) = some (.proc 31 .pid) :=
    samplePlacement.find_eq_some_iff.mpr ⟨rfl, rfl⟩
  refine ⟨{ s with
    phys := { s.phys with mem := m }
    procs := Function.update s.procs 31 { s.procs 31 with pid := 7 } }, ?_, ?_⟩
  · rw [Placement.userStore, hcur, Option.bind_eq_bind, Option.bind_some, hpa,
      Option.bind_eq_bind, Option.bind_some, hm, if_pos (samplePlacement.place_inImage _), hfind]
    dsimp only
    rw [hword]
    rfl
  · rfl

/-- **The process table is not out of reach.** Booted, the application of `exposedHost`,
    whose only segment starts inside a page, sets `procs[31].pid` to 7. -/
theorem pid_overwritten : ∃ s tr s', samplePlacement.Boots exposedHost s ∧
    StaticRun samplePlacement (fun _ _ => True) s tr s' ∧
    (s'.procs 31).pid ≠ BitVec.ofNat 64 31 := by
  obtain ⟨s₁, hboot, hsched, hx⟩ := sStart_exposed (powerOn 0)
  obtain ⟨w, hwin, himage⟩ := hx.window hsched.current (samplePlacement.flush_imageOnly s₁)
  have hpid : load64 (samplePlacement.flush s₁).phys.mem
      (samplePlacement.place (.proc 31 .pid)) = 31 := by
    rw [samplePlacement.load_flush]
    have hword : samplePlacement.word s₁ (.proc 31 .pid) = 31 := hsched.pids 31
    rw [hword, Static.mask]
    · simp
    all_goals simp
  have hboots : samplePlacement.Boots exposedHost (samplePlacement.flush s₁) :=
    ⟨powerOn 0, s₁, hboot, hx.image, rfl⟩
  generalize samplePlacement.flush s₁ = s at *
  -- the entry for the page of `procs[]`, then the store through it
  obtain ⟨tr, hrun⟩ := hwin.mapped himage ⟨[], .nil s⟩ procsEntry
  have hmapped := translate_writeLeaf hwin.forest rfl hwin.node procsEntry rfl (vpnOf 0x80000)
  rw [if_pos ⟨rfl, rfl⟩, if_pos (by decide)] at hmapped
  obtain ⟨s', hst, hbad⟩ := userStore_pid (s := { s with
    phys := writeLeaf s.phys (ptePpn w) (vpnOf 0x80000) procsEntry }) hwin.current hmapped (by
      have hne : ppn (samplePlacement.place (.proc 31 .pid)) ≠ ptePpn w := fun heq =>
        himage (heq ▸ samplePlacement.place_inImage _)
      rw [load64, writeLeaf_of_ne hne]
      exact hpid)
  refine ⟨s, _, s', hboots, hrun.snoc trivial (.store hst), ?_⟩
  rw [hbad]
  decide

end Pke
