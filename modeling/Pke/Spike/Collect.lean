import Pke.Spike.Tree
import Mathlib.Data.List.TakeWhile

/-!
# Scans that collect something for every node

Both users of `fdt_scan` work in the same way: `open` clears a record, `prop` adds to it
what a property says, and `done` draws a conclusion from it. `Collector` is that pattern
on the contents of a blob, with names and values as lists of bytes, and `Items.collect`
what it computes: the conclusions for all nodes in the order of the blob, each with the
cells of the parent.

* `Collects.fdtScan`: callbacks that work like a collector compute with `fdt_scan` what
  the collector computes from the contents, for every well-formed blob.
-/

namespace Pke

open Lib

variable {σ ι γ : Type} {m : Mem} {a lex strings : Word} {str : BitVec 32 → List (BitVec 8)}

/-! ## Names and values -/

/-- The C string at the beginning of a list of bytes. -/
def cstr (v : List (BitVec 8)) : List (BitVec 8) := v.takeWhile (· ≠ 0)

theorem cstr_of_not_mem {v : List (BitVec 8)} (h : 0 ∉ v) : cstr v = v := by
  rw [cstr, List.takeWhile_eq_self_iff]
  intro b hb
  exact decide_eq_true fun h0 => h (h0 ▸ hb)

/-- `strcmp` with a literal decides whether the string in memory is the literal. -/
theorem strcmp_eq_zero {v l lit : List (BitVec 8)} (h : BytesAt m a (v ++ 0 :: l))
    (hlit : 0 ∉ lit) : strcmp m a lit = 0 ↔ cstr v = lit := by
  induction v generalizing a lit with
  | nil =>
    have h0 : load8 m a = 0 := h.1
    cases lit with
    | nil => simp [strcmp, h0, cstr]
    | cons c lit =>
      have hc : c ≠ 0 := fun hc => hlit (hc ▸ List.mem_cons_self)
      have hN : c.toNat ≠ 0 := fun hN => hc (BitVec.eq_of_toNat_eq hN)
      simp [strcmp, h0, cstr, hN]
  | cons b v ih =>
    have hb : load8 m a = b := h.1
    by_cases hb0 : b = 0
    · cases lit with
      | nil => simp [strcmp, hb, hb0, cstr]
      | cons c lit =>
        have hc : c ≠ 0 := fun hc => hlit (hc ▸ List.mem_cons_self)
        have hN : c.toNat ≠ 0 := fun hN => hc (BitVec.eq_of_toNat_eq hN)
        simp [strcmp, hb, hb0, cstr, hN]
    · have hcstr : cstr (b :: v) = b :: cstr v := by
        rw [cstr, List.takeWhile_cons, if_pos (decide_eq_true hb0)]
        rfl
      cases lit with
      | nil =>
        have hN : b.toNat ≠ 0 := fun hN => hb0 (BitVec.eq_of_toNat_eq hN)
        simp [strcmp, hb, hcstr, hN]
      | cons c lit =>
        rw [strcmp, hb, hcstr, List.cons.injEq]
        by_cases hbc : b = c
        · rw [if_pos ⟨hb0, hbc⟩, ih h.2 fun hl => hlit (List.mem_cons_of_mem _ hl)]
          simp [hbc]
        · have hN : b.toNat ≠ c.toNat := fun hN => hbc (BitVec.eq_of_toNat_eq hN)
          rw [if_neg fun hand => hbc hand.2]
          simp only [hbc, false_and, iff_false]
          omega

/-- Every token starts with a zero byte. -/
theorem Items.bytes_head (items : Items) {t : BitVec 32} (ht : t = FDT_END_NODE ∨ t = FDT_END)
    (l : List (BitVec 8)) : ∃ l', items.bytes ++ (be32 t ++ l) = 0 :: l' := by
  cases items with
  | done => rcases ht with rfl | rfl <;> exact ⟨_, rfl⟩
  | nop rest => exact ⟨_, rfl⟩
  | prop nameoff value rest => exact ⟨_, rfl⟩
  | node name body rest => exact ⟨_, rfl⟩

/-- So a value is followed by a zero byte, whether it is padded or not. -/
theorem value_terminated {v tail l : List (BitVec 8)} (htail : tail = 0 :: l)
    (h : BytesAt m a (pad4 v ++ tail)) : ∃ l', BytesAt m a (v ++ 0 :: l') := by
  rw [pad4, List.append_assoc, htail] at h
  cases hk : (4 - v.length % 4) % 4 with
  | zero =>
    rw [hk] at h
    exact ⟨_, h⟩
  | succ k =>
    rw [hk, List.replicate_succ] at h
    exact ⟨_, h⟩

/-! ## Cells -/

/-- The two cell counts of a node. -/
structure Cells where
  address : BitVec 32
  size : BitVec 32
  deriving DecidableEq

namespace Cells

/-- What a helper starts its first child with. -/
def default : Cells := ⟨2, 1⟩

/-- The first word of a value. -/
def first (v : List (BitVec 8)) : BitVec 32 :=
  v.getD 0 0 ++ v.getD 1 0 ++ v.getD 2 0 ++ v.getD 3 0

/-- A property may declare one of the counts. -/
def declare (c : Cells) (name v : List (BitVec 8)) : Cells where
  address := if name = literal "#address-cells" then first v else c.address
  size := if name = literal "#size-cells" then first v else c.size

end Cells

/-- The counts in the record of a node. -/
def FdtScanNode.cells (node : FdtScanNode) : Cells := ⟨node.addressCells, node.sizeCells⟩

theorem be32_append (b₀ b₁ b₂ b₃ : BitVec 8) :
    be32 (b₀ ++ b₁ ++ b₂ ++ b₃ : BitVec 32) = [b₀, b₁, b₂, b₃] := by
  have hbyte : ∀ (k : ℕ) (b : BitVec 8), k + 8 ≤ 32 →
      (∀ i < 8, (b₀ ++ b₁ ++ b₂ ++ b₃ : BitVec 32).getLsbD (k + i) = b.getLsbD i) →
      (b₀ ++ b₁ ++ b₂ ++ b₃ : BitVec 32).extractLsb' k 8 = b := by
    intro k b _ hbits
    apply BitVec.eq_of_getLsbD_eq
    intro i hi
    rw [BitVec.getLsbD_extractLsb', hbits i hi]
    simp [hi]
  rw [be32, hbyte 24 b₀ (by omega), hbyte 16 b₁ (by omega), hbyte 8 b₂ (by omega),
    hbyte 0 b₃ (by omega)]
  all_goals
    intro i hi
    simp only [BitVec.getLsbD_append]
    interval_cases i <;> simp

/-- The word `lex[3]` of a property that has a value. -/
theorem cell_of_value {v l : List (BitVec 8)} (hv : v ≠ []) (h : BytesAt m a (pad4 v ++ l)) :
    cell m a = Cells.first v := by
  obtain ⟨l', hl'⟩ : ∃ l', pad4 v ++ l = be32 (Cells.first v) ++ l' := by
    rw [Cells.first, be32_append]
    rcases v with _ | ⟨b₀, _ | ⟨b₁, _ | ⟨b₂, _ | ⟨b₃, v⟩⟩⟩⟩
    · exact absurd rfl hv
    all_goals exact ⟨_, rfl⟩
  rw [hl'] at h
  exact cell_of_bytesAt h

/-! ## The contents with their names -/

namespace Items

/-- The strings block has the names of the properties: `str` of their offsets. -/
def Named (m : Mem) (strings : Word) (str : BitVec 32 → List (BitVec 8)) : Items → Prop
  | .done => True
  | .nop rest => rest.Named m strings str
  | .prop nameoff _ rest =>
    (BytesAt m (strings + nameoff.setWidth 64) (str nameoff ++ [0]) ∧ 0 ∉ str nameoff) ∧
      rest.Named m strings str
  | .node _ body rest => body.Named m strings str ∧ rest.Named m strings str

/-- A property that declares a cell count has a value. -/
def CellsGiven (str : BitVec 32 → List (BitVec 8)) : Items → Prop
  | .done => True
  | .nop rest => rest.CellsGiven str
  | .prop nameoff value rest =>
    (str nameoff = literal "#address-cells" ∨ str nameoff = literal "#size-cells" → value ≠ []) ∧
      rest.CellsGiven str
  | .node _ body rest => body.CellsGiven str ∧ rest.CellsGiven str

/-- The cells of a node with these contents that starts with the cells `c`. -/
def cells (str : BitVec 32 → List (BitVec 8)) : Items → Cells → Cells
  | .done, c => c
  | .nop rest, c => rest.cells str c
  | .prop nameoff value rest, c => rest.cells str (c.declare (str nameoff) value)
  | .node _ _ _, c => c

end Items

theorem setCells_cons {nameoff : BitVec 32} {v l : List (BitVec 8)} (node : FdtScanNode)
    (parents : List FdtScanNode)
    (hname : BytesAt m (strings + nameoff.setWidth 64) (str nameoff ++ [0])) (h0 : 0 ∉ str nameoff)
    (hv : str nameoff = literal "#address-cells" ∨ str nameoff = literal "#size-cells" → v ≠ [])
    (hval : BytesAt m a (pad4 v ++ l)) :
    ∃ node', setCells m (strings + nameoff.setWidth 64) (cell m a) (node :: parents) =
      node' :: parents ∧ node'.cells = node.cells.declare (str nameoff) v := by
  have hcmp : ∀ lit, 0 ∉ lit →
      (strcmp m (strings + nameoff.setWidth 64) lit = 0 ↔ str nameoff = lit) := fun lit hlit => by
    rw [strcmp_eq_zero hname hlit, cstr_of_not_mem h0]
  refine ⟨_, rfl, ?_⟩
  simp only [hcmp _ (show 0 ∉ literal "#address-cells" by decide),
    hcmp _ (show 0 ∉ literal "#size-cells" by decide)]
  by_cases ha : str nameoff = literal "#address-cells"
  · rw [cell_of_value (hv (Or.inl ha)) hval]
    by_cases hs : str nameoff = literal "#size-cells"
    · simp only [FdtScanNode.cells, Cells.declare, if_pos ha, if_pos hs]
    · simp only [FdtScanNode.cells, Cells.declare, if_pos ha, if_neg hs]
  · by_cases hs : str nameoff = literal "#size-cells"
    · rw [cell_of_value (hv (Or.inr hs)) hval]
      simp only [FdtScanNode.cells, Cells.declare, if_neg ha, if_pos hs]
    · simp only [FdtScanNode.cells, Cells.declare, if_neg ha, if_neg hs]

/-! ## Collectors -/

/-- Something to find out about every node: a record that the properties fill, and what the
    record of a node with the given cells in its parent does to the result. -/
structure Collector (ι γ : Type) where
  init : ι
  add : (name value : List (BitVec 8)) → ι → ι
  finish : Option Cells → ι → γ → γ

namespace Items

/-- The record of a node with these contents. -/
def gather (K : Collector ι γ) (str : BitVec 32 → List (BitVec 8)) : Items → ι → ι
  | .done, i => i
  | .nop rest, i => rest.gather K str i
  | .prop nameoff value rest, i => rest.gather K str (K.add (str nameoff) value i)
  | .node _ _ _, i => i

/-- The result over all nodes of the contents, whose parent has the cells `own`; `child` is
    the cells that the node before them ended with. -/
def collect (K : Collector ι γ) (str : BitVec 32 → List (BitVec 8)) :
    Items → Option Cells → Cells → γ → γ
  | .done, _, _, g => g
  | .nop rest, own, child, g => rest.collect K str own child g
  | .prop _ _ rest, own, child, g => rest.collect K str own child g
  | .node _ body rest, own, child, g =>
    rest.collect K str own (body.cells str child)
      (body.collect K str (some (body.cells str child)) Cells.default
        (K.finish own (body.gather K str K.init) g))

/-- A condition on the records of all nodes. -/
def EachNode (K : Collector ι γ) (str : BitVec 32 → List (BitVec 8))
    (ok : Option Cells → ι → Prop) : Items → Option Cells → Cells → Prop
  | .done, _, _ => True
  | .nop rest, own, child => rest.EachNode K str ok own child
  | .prop _ _ rest, own, child => rest.EachNode K str ok own child
  | .node _ body rest, own, child =>
    ok own (body.gather K str K.init) ∧
      body.EachNode K str ok (some (body.cells str child)) Cells.default ∧
        rest.EachNode K str ok own (body.cells str child)

end Items

/-- The cells of the first node of a path. -/
def ownCells (path : List FdtScanNode) : Option Cells := path.head?.map FdtScanNode.cells

/-- Callbacks that work like a collector: `Rec e i g` says that the state `e` holds the record
    `i` and the result `g`, and `Res e g` that it holds the result. -/
structure Collects (cb : FdtCb σ) (m : Mem) (K : Collector ι γ) (ok : Option Cells → ι → Prop)
    (Rec : σ → ι → γ → Prop) (Res : σ → γ → Prop) : Prop where
  close : cb.close = none
  opened : ∀ path {e g}, Res e g →
    ∃ e', runEvent cb m (.opened path) e = .ret () e' ∧ Rec e' K.init g
  prop : ∀ {p : FdtScanProp} {name v l e i g}, Rec e i g → BytesAt m p.name (name ++ [0]) →
    0 ∉ name → BytesAt m p.value (v ++ 0 :: l) → p.len = BitVec.ofNat 32 v.length →
    v.length + 3 < 2 ^ 31 → p.value ≠ 0 →
    ∃ e', runEvent cb m (.prop p) e = .ret () e' ∧ Rec e' (K.add name v i) g
  done : ∀ node {parents e i g}, Rec e i g → ok (ownCells parents) i →
    ∃ e', runEvent cb m (.done (node :: parents)) e = .ret () e' ∧
      Res e' (K.finish (ownCells parents) i g)

/-! ## Contents in memory -/

/-- The contents stand at `lex`, with their names in the strings block. -/
structure Placed (m : Mem) (strings : Word) (str : BitVec 32 → List (BitVec 8)) (items : Items)
    (last : Bool) (lex : Word) : Prop where
  wf : items.WF last
  bytes : ∃ t l, (t = FDT_END_NODE ∨ t = FDT_END) ∧ BytesAt m lex (items.bytes ++ (be32 t ++ l))
  named : items.Named m strings str
  cells : items.CellsGiven str
  pos : 0 < lex.toNat
  room : lex.toNat + items.bytes.length + 4 ≤ 2 ^ 64

namespace Placed

variable {last : Bool} {rest body : Items} {nameoff : BitVec 32} {name value : List (BitVec 8)}

theorem add_toNat {k : ℕ} (h : lex.toNat + k < 2 ^ 64) :
    (lex + BitVec.ofNat 64 k).toNat = lex.toNat + k := by
  rw [BitVec.toNat_add, BitVec.toNat_ofNat]
  omega

theorem nop (h : Placed m strings str (.nop rest) last lex) :
    Placed m strings str rest last (lex + 4) := by
  obtain ⟨t, l, ht, hbytes⟩ := h.bytes
  rw [Items.bytes, List.append_assoc] at hbytes
  have hroom := h.room
  rw [Items.bytes, List.length_append, be32_length] at hroom
  have hN : (lex + 4).toNat = lex.toNat + 4 := add_toNat (k := 4) (by omega)
  exact ⟨h.wf, ⟨t, l, ht, (bytesAt_append.mp hbytes).2⟩, h.named, h.cells, by omega, by omega⟩

/-- The value of a property, and what stands behind it. -/
theorem value_at (h : Placed m strings str (.prop nameoff value rest) last lex) :
    ∃ t l, (t = FDT_END_NODE ∨ t = FDT_END) ∧
      BytesAt m (lex + 12) (pad4 value ++ (rest.bytes ++ (be32 t ++ l))) := by
  obtain ⟨t, l, ht, hbytes⟩ := h.bytes
  simp only [Items.bytes, List.append_assoc] at hbytes
  have hvalue := (bytesAt_append.mp (bytesAt_append.mp (bytesAt_append.mp hbytes).2).2).2
  rw [be32_length, be32_length, be32_length, add_ofNat_add, add_ofNat_add] at hvalue
  exact ⟨t, l, ht, hvalue⟩

theorem value_ne_zero (h : Placed m strings str (.prop nameoff value rest) last lex) :
    lex + 12 ≠ 0 := by
  intro hzero
  have hroom := h.room
  simp only [Items.bytes, List.length_append, be32_length] at hroom
  have hN : (lex + 12).toNat = lex.toNat + 12 := add_toNat (k := 12) (by omega)
  rw [hzero] at hN
  simp at hN

theorem prop (h : Placed m strings str (.prop nameoff value rest) last lex) :
    Placed m strings str rest false
      (lex + BitVec.ofNat 64 (12 + 4 * ((value.length + 3) / 4))) := by
  obtain ⟨t, l, ht, hvalue⟩ := h.value_at
  have hrest := (bytesAt_append.mp hvalue).2
  rw [show lex + 12 = lex + BitVec.ofNat 64 12 from rfl, pad4_length, add_ofNat_add] at hrest
  have hroom := h.room
  simp only [Items.bytes, List.length_append, be32_length, pad4_length] at hroom
  have hN : (lex + BitVec.ofNat 64 (12 + 4 * ((value.length + 3) / 4))).toNat =
      lex.toNat + (12 + 4 * ((value.length + 3) / 4)) := add_toNat (by omega)
  exact ⟨h.wf.2.2, ⟨t, l, ht, hrest⟩, h.named.2, h.cells.2, by omega, by omega⟩

theorem bodyAddr_eq : Items.bodyAddr lex name =
    lex + BitVec.ofNat 64 (8 + 4 * (name.length / 4)) := add_ofNat_add lex 8 _

theorem node_bytes (h : Placed m strings str (.node name body rest) last lex) :
    ∃ t l, (t = FDT_END_NODE ∨ t = FDT_END) ∧ BytesAt m (Items.bodyAddr lex name)
      (body.bytes ++ (be32 FDT_END_NODE ++ (rest.bytes ++ (be32 t ++ l)))) := by
  obtain ⟨t, l, ht, hbytes⟩ := h.bytes
  simp only [Items.bytes, List.append_assoc] at hbytes
  have hbody := (bytesAt_append.mp (bytesAt_append.mp hbytes).2).2
  rw [be32_length, pad4_length, List.length_append, List.length_singleton, add_ofNat_add,
    show 4 + 4 * ((name.length + 1 + 3) / 4) = 8 + 4 * (name.length / 4) by omega,
    ← bodyAddr_eq] at hbody
  exact ⟨t, l, ht, hbody⟩

theorem node_length : (Items.node name body rest).bytes.length =
    8 + 4 * (name.length / 4) + body.bytes.length + 4 + rest.bytes.length := by
  simp only [Items.bytes, List.length_append, be32_length, pad4_length, List.length_singleton]
  omega

theorem inner (h : Placed m strings str (.node name body rest) last lex) :
    Placed m strings str body false (Items.bodyAddr lex name) := by
  obtain ⟨t, l, -, hbody⟩ := h.node_bytes
  have hroom := h.room
  rw [node_length] at hroom
  have hN : (Items.bodyAddr lex name).toNat = lex.toNat + (8 + 4 * (name.length / 4)) := by
    rw [bodyAddr_eq]
    exact add_toNat (by omega)
  exact ⟨h.wf.2.2.1, ⟨_, _, Or.inl rfl, hbody⟩, h.named.1, h.cells.1, by omega, by omega⟩

theorem behind (h : Placed m strings str (.node name body rest) last lex) :
    Placed m strings str rest true
      (Items.bodyAddr lex name + BitVec.ofNat 64 (body.bytes.length + 4)) := by
  obtain ⟨t, l, ht, hbody⟩ := h.node_bytes
  have hrest := (bytesAt_append.mp (bytesAt_append.mp hbody).2).2
  rw [be32_length, add_ofNat_add] at hrest
  have hroom := h.room
  rw [node_length] at hroom
  have hN : (Items.bodyAddr lex name + BitVec.ofNat 64 (body.bytes.length + 4)).toNat =
      lex.toNat + (8 + 4 * (name.length / 4) + (body.bytes.length + 4)) := by
    rw [bodyAddr_eq, add_ofNat_add]
    exact add_toNat (by omega)
  exact ⟨h.wf.2.2.2, ⟨t, l, ht, hrest⟩, h.named.2, h.cells.2, by omega, by omega⟩

/-- The node that a path starts with has the cells that the contents give it. -/
theorem path_cons {items : Items} (h : Placed m strings str items last lex) :
    ∀ (node : FdtScanNode) (parents : List FdtScanNode),
      ∃ node', items.path m strings lex (node :: parents) = node' :: parents ∧
        node'.cells = items.cells str node.cells := by
  induction items generalizing lex last with
  | done => exact fun node parents => ⟨node, rfl, rfl⟩
  | nop rest ih => exact ih h.nop
  | prop nameoff value rest ih =>
    intro node parents
    obtain ⟨t, l, -, hvalue⟩ := h.value_at
    obtain ⟨node₁, hset, hcells⟩ := setCells_cons node parents h.named.1.1 h.named.1.2
      h.cells.1 hvalue
    obtain ⟨node', hpath, hcells'⟩ := ih h.prop node₁ parents
    refine ⟨node', ?_, ?_⟩
    · rw [Items.path, hset, hpath]
    · rw [hcells', hcells, Items.cells]
  | node name body rest ihb ihr => exact fun node parents => ⟨node, rfl, rfl⟩

end Placed

/-! ## The scan -/

section Scan

variable {cb : FdtCb σ} {K : Collector ι γ} {ok : Option Cells → ι → Prop}
  {Rec : σ → ι → γ → Prop} {Res : σ → γ → Prop}

theorem runEvents_cons {x : ScanEvent} {es : List ScanEvent} {e e' : σ}
    (h : runEvent cb m x e = .ret () e') : runEvents cb m (x :: es) e = runEvents cb m es e' :=
  Prog.bind_of_ret h _

theorem runEvents_append_of_ret {es es' : List ScanEvent} {e e' : σ}
    (h : runEvents cb m es e = .ret () e') :
    runEvents cb m (es ++ es') e = runEvents cb m es' e' := by
  rw [runEvents_append]
  exact Prog.bind_of_ret h _

/-- What the calls compute behind a node, with the properties of the parent done. -/
def AfterNode (cb : FdtCb σ) (m : Mem) (strings : Word) (str : BitVec 32 → List (BitVec 8))
    (K : Collector ι γ) (ok : Option Cells → ι → Prop) (Res : σ → γ → Prop) (items : Items) :
    Prop :=
  ∀ {lex} path child {e g}, Placed m strings str items true lex → Res e g →
    items.EachNode K str ok (ownCells path) child.cells →
    ∃ e', runEvents cb m (items.events m strings lex path child true) e = .ret () e' ∧
      Res e' (items.collect K str (ownCells path) child.cells g)

/-- What the calls compute for the contents of an open node. -/
def AfterOpen (cb : FdtCb σ) (m : Mem) (strings : Word) (str : BitVec 32 → List (BitVec 8))
    (K : Collector ι γ) (ok : Option Cells → ι → Prop) (Rec : σ → ι → γ → Prop)
    (Res : σ → γ → Prop) (items : Items) : Prop :=
  ∀ {lex} node parents child {e i g}, Placed m strings str items false lex → Rec e i g →
    ok (ownCells parents) (items.gather K str i) →
    items.EachNode K str ok (some (items.cells str node.cells)) child.cells →
    ∃ e', runEvents cb m (items.events m strings lex (node :: parents) child false) e =
        .ret () e' ∧
      Res e' (items.collect K str (some (items.cells str node.cells)) child.cells
        (K.finish (ownCells parents) (items.gather K str i) g))

/-- A node: it is opened, its contents are scanned, and the scan goes on behind it. -/
theorem Collects.node (hK : Collects cb m K ok Rec Res) {name : List (BitVec 8)}
    {body rest : Items} (hbody : AfterOpen cb m strings str K ok Rec Res body)
    (hrest : AfterNode cb m strings str K ok Res rest) :
    AfterNode cb m strings str K ok Res (.node name body rest) := by
  intro lex path child e g hp hres heach
  obtain ⟨hok, heachb, heachr⟩ := heach
  obtain ⟨e₁, hopen, hrec⟩ := hK.opened ({ child with name := lex + 4 } :: path) hres
  obtain ⟨e₂, hb, hres₂⟩ := hbody { child with name := lex + 4 } path defaultChild hp.inner hrec
    hok heachb
  obtain ⟨node', hpath, hcells⟩ := hp.inner.path_cons { child with name := lex + 4 } path
  have hhead : ((body.path m strings (Items.bodyAddr lex name)
      ({ child with name := lex + 4 } :: path)).headD { child with name := lex + 4 }).cells =
      body.cells str child.cells := by
    rw [hpath]
    exact hcells
  obtain ⟨e₃, hr, hres₃⟩ := hrest path _ hp.behind hres₂ (by rw [hhead]; exact heachr)
  rw [hhead] at hres₃
  refine ⟨e₃, ?_, hres₃⟩
  show runEvents cb m (.opened _ :: (_ ++ _)) e = _
  rw [runEvents_cons hopen, runEvents_append_of_ret hb]
  exact hr

/-- Both phases, by induction on the contents. -/
theorem Collects.phases (hK : Collects cb m K ok Rec Res) (items : Items) :
    AfterNode cb m strings str K ok Res items ∧ AfterOpen cb m strings str K ok Rec Res items := by
  induction items with
  | done =>
    constructor
    · intro lex path child e g _ hres _
      exact ⟨e, rfl, hres⟩
    · intro lex node parents child e i g _ hrec hok _
      obtain ⟨e', hdone, hres⟩ := hK.done node hrec hok
      exact ⟨e', runEvents_cons hdone, hres⟩
  | nop rest ih =>
    constructor
    · intro lex path child e g hp hres heach
      exact ih.1 path child hp.nop hres heach
    · intro lex node parents child e i g hp hrec hok heach
      exact ih.2 node parents child hp.nop hrec hok heach
  | prop nameoff value rest ih =>
    constructor
    · intro lex path child e g hp
      exact absurd hp.wf.1 (by decide)
    · intro lex node parents child e i g hp hrec hok heach
      obtain ⟨t, l, ht, hvalue⟩ := hp.value_at
      obtain ⟨node', hset, hcells⟩ := setCells_cons node parents hp.named.1.1 hp.named.1.2
        hp.cells.1 hvalue
      obtain ⟨l₁, htail⟩ := rest.bytes_head ht l
      obtain ⟨l₂, hstring⟩ := value_terminated htail hvalue
      obtain ⟨e₁, hprop, hrec₁⟩ := hK.prop (p := ⟨node' :: parents,
        strings + nameoff.setWidth 64, lex + 12, BitVec.ofNat 32 value.length⟩) hrec hp.named.1.1
        hp.named.1.2 hstring rfl hp.wf.2.1 hp.value_ne_zero
      rw [Items.cells, ← hcells] at heach ⊢
      obtain ⟨e', hrest, hres⟩ := ih.2 node' parents child hp.prop hrec₁ hok heach
      refine ⟨e', ?_, hres⟩
      rw [Items.events, hset, runEvents_cons hprop]
      exact hrest
  | node name body rest ihb ihr =>
    have hnode : AfterNode cb m strings str K ok Res (.node name body rest) :=
      hK.node ihb.2 ihr.1
    refine ⟨hnode, ?_⟩
    intro lex node parents child e i g hp hrec hok heach
    obtain ⟨e₁, hdone, hres⟩ := hK.done node hrec hok
    have hp' : Placed m strings str (.node name body rest) true lex := ⟨hp.wf, hp.bytes, hp.named,
      hp.cells, hp.pos, hp.room⟩
    obtain ⟨e', hrun, hres'⟩ := hnode (node :: parents) child hp' hres heach
    refine ⟨e', ?_, hres'⟩
    rw [← hrun]
    show runEvents cb m (.done (node :: parents) :: _) e = _
    rw [runEvents_cons hdone]
    rfl

/-- Without properties it makes no difference at the top whether a node was met. -/
theorem Items.events_top {items : Items} (hwf : items.WF true) {child : FdtScanNode} :
    items.events m strings lex [] child false = items.events m strings lex [] child true := by
  induction items generalizing lex with
  | done => rfl
  | nop rest ih => exact ih hwf
  | prop nameoff value rest ih => exact absurd hwf.1 (by decide)
  | node name body rest ihb ihr => rfl

/-- A blob with a device tree: nodes only at the top, and names in the strings block. -/
structure TreeAt (m : Mem) (fdt : Word) (str : BitVec 32 → List (BitVec 8)) (items : Items) : Prop
    extends BlobAt m fdt items where
  top : items.WF true
  named : items.Named m (stringsOf m fdt) str
  cells : items.CellsGiven str
  pos : 0 < (structOf m fdt).toNat
  room : (structOf m fdt).toNat + items.bytes.length + 4 ≤ 2 ^ 64

/-- **What a scan collects.** On every device tree the scan returns, and what it leaves is
    what the collector computes from the nodes of the tree. -/
theorem Collects.fdtScan (hK : Collects cb m K ok Rec Res) {fdt : Word} {items : Items}
    (ht : TreeAt m fdt str items) (heach : items.EachNode K str ok none Cells.default) {fuel : ℕ}
    (hfuel : items.steps ≤ fuel) {e : σ} {g : γ} (hres : Res e g) :
    ∃ e', fdtScan fuel cb fdt ⟨m, e⟩ = .ret () ⟨m, e'⟩ ∧
      Res e' (items.collect K str none Cells.default g) := by
  have hbytes : BytesAt m (structOf m fdt) (items.bytes ++ (be32 FDT_END ++ [])) := by
    rw [List.append_nil]
    exact ht.struct
  have hp : Placed m (stringsOf m fdt) str items true (structOf m fdt) :=
    ⟨ht.top, ⟨_, _, Or.inr rfl, hbytes⟩, ht.named, ht.cells, ht.pos, ht.room⟩
  obtain ⟨e', hrun, hres'⟩ := (hK.phases items).1 [] defaultChild hp hres heach
  refine ⟨e', ?_, hres'⟩
  rw [fdtScan_eq hK.close ht.toBlobAt hfuel, scanned, Items.events_top ht.top, hrun]

end Scan

end Pke
