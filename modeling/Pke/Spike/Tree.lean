import Pke.Spike.Fdt
import Pke.Lib.Laid

/-!
# The structure block of a device tree

`Items` is the contents of a node: properties, nodes and padding, in the order of the
blob. `Items.bytes` is their encoding, big-endian words with names and values padded to
words, and `BytesAt` says that memory holds it.

* `fdtScanHelper_eq`: on the encoding of any well-formed contents `fdt_scan_helper` calls
  the callbacks of `Items.events`, in that order, and returns behind the contents.
* `fdtScan_eq`: the same for a whole blob.

The events say when `done` is called (behind the last property of a node, in front of its
first child), and which cells a node has: `fdt_scan_helper` keeps one `child` for all
children of a node, so a child starts with the cells that the child before it declared.
-/

namespace Pke

open Lib

variable {σ : Type} {m : Mem} {a lex strings : Word}

/-! ## Bytes in memory -/

/-- The bytes of a list stand in memory from an address on. -/
abbrev BytesAt (m : Mem) (a : Word) (l : List (BitVec 8)) : Prop := Laid (load8 m) (· + 1) a l

theorem iterate_add_one (n : ℕ) (a : Word) : (· + 1)^[n] a = a + BitVec.ofNat 64 n := by
  induction n generalizing a with
  | zero => simp
  | succ n ih =>
    rw [Function.iterate_succ_apply, ih, BitVec.add_assoc]
    congr 1
    apply BitVec.eq_of_toNat_eq
    simp [Nat.add_comm]

theorem bytesAt_append {l₁ l₂ : List (BitVec 8)} : BytesAt m a (l₁ ++ l₂) ↔
    BytesAt m a l₁ ∧ BytesAt m (a + BitVec.ofNat 64 l₁.length) l₂ := by
  rw [BytesAt, laid_append, iterate_add_one]

/-- The bytes of a word of the blob. -/
def be32 (w : BitVec 32) : List (BitVec 8) :=
  [w.extractLsb' 24 8, w.extractLsb' 16 8, w.extractLsb' 8 8, w.extractLsb' 0 8]

@[simp] theorem be32_length (w : BitVec 32) : (be32 w).length = 4 := rfl

theorem bswap_append (b₃ b₂ b₁ b₀ : BitVec 8) :
    bswap (b₃ ++ b₂ ++ b₁ ++ b₀ : BitVec 32) = (b₀ ++ b₁ ++ b₂ ++ b₃ : BitVec 32) := by
  apply BitVec.eq_of_getLsbD_eq
  intro i hi
  simp only [bswap, BitVec.getLsbD_or, BitVec.getLsbD_and, BitVec.getLsbD_shiftLeft,
    BitVec.getLsbD_ushiftRight, BitVec.getLsbD_append]
  interval_cases i <;> simp

theorem append_be32 (w : BitVec 32) : (w.extractLsb' 24 8 ++ w.extractLsb' 16 8 ++
    w.extractLsb' 8 8 ++ w.extractLsb' 0 8 : BitVec 32) = w := by
  apply BitVec.eq_of_getLsbD_eq
  intro i hi
  simp only [BitVec.getLsbD_append, BitVec.getLsbD_extractLsb']
  interval_cases i <;> simp

/-- A word of the blob is read back. -/
theorem cell_of_bytesAt {w : BitVec 32} {l : List (BitVec 8)} (h : BytesAt m a (be32 w ++ l)) :
    cell m a = w := by
  obtain ⟨h0, h1, h2, h3, -⟩ := h
  have hword : load32 m a = w.extractLsb' 0 8 ++ w.extractLsb' 8 8 ++ w.extractLsb' 16 8 ++
      w.extractLsb' 24 8 := by
    have e2 : a + 2 = a + 1 + 1 := by rw [BitVec.add_assoc]; rfl
    have e3 : a + 3 = a + 1 + 1 + 1 := by rw [BitVec.add_assoc, BitVec.add_assoc]; rfl
    rw [load32, e3, e2, h3, h2, h1, h0]
  rw [cell, hword, bswap_append, append_be32]

/-- A list of bytes filled up to words. -/
def pad4 (l : List (BitVec 8)) : List (BitVec 8) :=
  l ++ List.replicate ((4 - l.length % 4) % 4) 0

theorem pad4_length (l : List (BitVec 8)) : (pad4 l).length = 4 * ((l.length + 3) / 4) := by
  rw [pad4, List.length_append, List.length_replicate]
  omega

theorem cstring_of_bytesAt {l : List (BitVec 8)} (h : BytesAt m a (l ++ [0])) (h0 : 0 ∉ l)
    {n : ℕ} (hn : l.length < n) : cstring m n a = some l := by
  induction l generalizing a n with
  | nil =>
    cases n with
    | zero => simp at hn
    | succ n => rw [cstring, if_pos h.1]
  | cons b l ih =>
    cases n with
    | zero => simp at hn
    | succ n =>
      have hb : ¬ load8 m a = 0 := by
        rw [h.1]
        rintro rfl
        exact h0 List.mem_cons_self
      rw [cstring, if_neg hb, ih h.2 (fun hl => h0 (List.mem_cons_of_mem _ hl))
        (Nat.lt_of_succ_lt_succ hn), h.1]
      rfl

/-! ## The format -/

/-- The contents of a node in the order of the structure block: padding, properties with
    the offset of their name in the strings block, and nodes. -/
inductive Items where
  | done
  | nop (rest : Items)
  | prop (nameoff : BitVec 32) (value : List (BitVec 8)) (rest : Items)
  | node (name : List (BitVec 8)) (body rest : Items)

namespace Items

/-- The encoding of the contents. -/
def bytes : Items → List (BitVec 8)
  | .done => []
  | .nop rest => be32 FDT_NOP ++ rest.bytes
  | .prop nameoff value rest =>
    be32 FDT_PROP ++ (be32 (BitVec.ofNat 32 value.length) ++ (be32 nameoff ++
      (pad4 value ++ rest.bytes)))
  | .node name body rest =>
    be32 FDT_BEGIN_NODE ++ (pad4 (name ++ [0]) ++ (body.bytes ++ (be32 FDT_END_NODE ++
      rest.bytes)))

/-- Contents as the format asks for: the properties stand in front of the nodes, where
    `last` says that a node was met, and lengths fit an `int`. -/
def WF : Bool → Items → Prop
  | _, .done => True
  | last, .nop rest => rest.WF last
  | last, .prop _ value rest => last = false ∧ value.length + 3 < 2 ^ 31 ∧ rest.WF false
  | _, .node name body rest => 0 ∉ name ∧ name.length < 2 ^ 31 ∧ body.WF false ∧ rest.WF true

/-- How many steps a scan of the contents makes. -/
def steps : Items → ℕ
  | .done => 1
  | .nop rest => rest.steps + 1
  | .prop _ _ rest => rest.steps + 1
  | .node _ body rest => body.steps + rest.steps + 1

end Items

/-- The address behind `k` bytes and then `j` more. -/
theorem add_ofNat_add (a : Word) (k j : ℕ) :
    a + BitVec.ofNat 64 k + BitVec.ofNat 64 j = a + BitVec.ofNat 64 (k + j) := by
  rw [BitVec.add_assoc]
  congr 1
  apply BitVec.eq_of_toNat_eq
  simp

/-! The lengths are of the type `int`; on small ones its division is that of numbers. -/

theorem int_msb {n : ℕ} (hn : n < 2 ^ 31) : (BitVec.ofNat 32 n).msb = false := by
  rw [BitVec.msb_eq_decide, BitVec.toNat_ofNat, decide_eq_false_iff_not]
  omega

theorem int_div_four {n : ℕ} (hn : n < 2 ^ 31) :
    (BitVec.ofNat 32 n).sdiv 4 = BitVec.ofNat 32 (n / 4) := by
  rw [BitVec.sdiv_eq, int_msb hn, show (4 : BitVec 32).msb = false from rfl]
  apply BitVec.eq_of_toNat_eq
  show (BitVec.ofNat 32 n / 4).toNat = _
  rw [BitVec.toNat_udiv, BitVec.toNat_ofNat, BitVec.toNat_ofNat,
    show (4 : BitVec 32).toNat = 4 from rfl]
  omega

theorem int_mod_four {n : ℕ} (hn : n < 2 ^ 31) :
    (BitVec.ofNat 32 n).srem 4 = BitVec.ofNat 32 (n % 4) := by
  rw [BitVec.srem_eq, int_msb hn, show (4 : BitVec 32).msb = false from rfl]
  apply BitVec.eq_of_toNat_eq
  show (BitVec.ofNat 32 n % 4).toNat = _
  rw [BitVec.toNat_umod, BitVec.toNat_ofNat, BitVec.toNat_ofNat,
    show (4 : BitVec 32).toNat = 4 from rfl]
  omega

/-- An index of words, as an offset in bytes. -/
theorem int_words {n : ℕ} (hn : n < 2 ^ 31) :
    4 * (BitVec.ofNat 32 n).signExtend 64 = BitVec.ofNat 64 (4 * n) := by
  rw [BitVec.signExtend_eq_setWidth_of_msb_false (int_msb hn)]
  apply BitVec.eq_of_toNat_eq
  rw [BitVec.toNat_mul, BitVec.toNat_setWidth, BitVec.toNat_ofNat, BitVec.toNat_ofNat,
    show (4 : Word).toNat = 4 from rfl]
  omega

/-- The step over a property whose length is not too long. -/
theorem behindProp_eq {n : ℕ} (hn : n + 3 < 2 ^ 31) :
    behindProp lex (BitVec.ofNat 32 n) = lex + BitVec.ofNat 64 (12 + 4 * ((n + 3) / 4)) := by
  have hsum : BitVec.ofNat 32 n + 3 = BitVec.ofNat 32 (n + 3) := (BitVec.ofNat_add n 3).symm
  have hwords : 3 + BitVec.ofNat 32 ((n + 3) / 4) = BitVec.ofNat 32 (3 + (n + 3) / 4) :=
    (BitVec.ofNat_add 3 ((n + 3) / 4)).symm
  rw [behindProp, hsum, int_div_four hn, hwords, int_words (by omega)]
  congr 2
  omega

/-! ## What a scan calls -/

/-- A call of a callback. -/
inductive ScanEvent where
  | opened (path : List FdtScanNode)
  | prop (p : FdtScanProp)
  | done (path : List FdtScanNode)

def runEvent (cb : FdtCb σ) (m : Mem) : ScanEvent → Prog σ Halt Unit
  | .opened path => (cb.opened.map fun f => f m path).getD (pure ())
  | .prop p => (cb.prop.map fun f => f m p).getD (Prog.halt .fault)
  | .done path => (cb.done.map fun f => f m path).getD (pure ())

/-- The calls one after the other. -/
def runEvents (cb : FdtCb σ) (m : Mem) : List ScanEvent → Prog σ Halt Unit
  | [] => pure ()
  | e :: es => runEvent cb m e >>= fun _ => runEvents cb m es

theorem runEvents_append (cb : FdtCb σ) (es es' : List ScanEvent) :
    runEvents cb m (es ++ es') = runEvents cb m es >>= fun _ => runEvents cb m es' := by
  induction es with
  | nil => rfl
  | cons e es ih => simp only [List.cons_append, runEvents, ih, Prog.bind_assoc]

/-- The call of `done`, unless a node was met before or there is no node. -/
def doneEvents (last : Bool) (path : List FdtScanNode) : List ScanEvent :=
  if last = false ∧ path ≠ [] then [.done path] else []

namespace Items

/-- The path behind the properties: they set the cells of its first node. -/
def path (m : Mem) (strings : Word) : Items → Word → List FdtScanNode → List FdtScanNode
  | .done, _, path => path
  | .nop rest, lex, path => rest.path m strings (lex + 4) path
  | .prop nameoff value rest, lex, path =>
    rest.path m strings (lex + BitVec.ofNat 64 (12 + 4 * ((value.length + 3) / 4)))
      (setCells m (strings + nameoff.setWidth 64) (cell m (lex + 12)) path)
  | .node _ _ _, _, path => path

/-- Behind a node there are no properties. -/
theorem path_of_wf {items : Items} (hwf : items.WF true) :
    ∀ {lex : Word} {path : List FdtScanNode}, items.path m strings lex path = path := by
  induction items with
  | done => intros; rfl
  | nop rest ih => intro lex path; exact ih hwf
  | prop nameoff value rest ih => exact absurd hwf.1 (by decide)
  | node name body rest ihb ihr => intros; rfl

/-- Where the body of a node starts. -/
def bodyAddr (lex : Word) (name : List (BitVec 8)) : Word :=
  lex + 8 + BitVec.ofNat 64 (4 * (name.length / 4))

/-- The calls for the contents of the first node of the path, which stand at `lex`; `child`
    is the record of the child met last, with the cells it ended with. -/
def events (m : Mem) (strings : Word) :
    Items → Word → List FdtScanNode → FdtScanNode → Bool → List ScanEvent
  | .done, _, path, _, last => doneEvents last path
  | .nop rest, lex, path, child, last => rest.events m strings (lex + 4) path child last
  | .prop nameoff value rest, lex, path, child, last =>
    let path := setCells m (strings + nameoff.setWidth 64) (cell m (lex + 12)) path
    .prop ⟨path, strings + nameoff.setWidth 64, lex + 12, BitVec.ofNat 32 value.length⟩ ::
      rest.events m strings (lex + BitVec.ofNat 64 (12 + 4 * ((value.length + 3) / 4))) path child
        last
  | .node name body rest, lex, path, child, last =>
    let child := { child with name := lex + 4 }
    doneEvents last path ++ (.opened (child :: path) ::
      (body.events m strings (bodyAddr lex name) (child :: path) defaultChild false ++
        rest.events m strings (bodyAddr lex name + BitVec.ofNat 64 (body.bytes.length + 4)) path
          ((body.path m strings (bodyAddr lex name) (child :: path)).headD child) true))

end Items

/-! ## One step of the helper -/

/-- The outcome of calls, in memory that stays as it is. -/
def scanned {α : Type} (m : Mem) (c : Prog σ Halt Unit) (r : α) : ScanM σ α := fun s =>
  match c s.extra with
  | .ret _ e => .ret r ⟨m, e⟩
  | .exit e => .exit ⟨m, e⟩
  | .halt h => .halt h

theorem bind_scanned {α β : Type} {c d : Prog σ Halt Unit} {r : α} {r' : β} {e : σ}
    {x : ScanM σ α} {k : α → ScanM σ β} (hx : x ⟨m, e⟩ = scanned m c r ⟨m, e⟩)
    (hk : ∀ e, k r ⟨m, e⟩ = scanned m d r' ⟨m, e⟩) :
    (x >>= k) ⟨m, e⟩ = scanned m (c >>= fun _ => d) r' ⟨m, e⟩ := by
  rw [Prog.bind_apply, hx]
  unfold scanned
  rw [Prog.bind_apply]
  cases c e with
  | ret u e' => exact hk e'
  | exit e' => rfl
  | halt h => rfl

section Step

variable {cb : FdtCb σ} {fuel : ℕ} {path : List FdtScanNode} {child : FdtScanNode} {last : Bool}
  {e : σ}

theorem callback_eq {α : Type} (f : Mem → α → Prog σ Halt Unit) (a : α) (e : σ) :
    callback f a ⟨m, e⟩ = scanned m (f m a) () ⟨m, e⟩ := by
  show Prog.zoom Scan.extra (fun s e => { s with extra := e }) (f m a) ⟨m, e⟩ = _
  unfold Prog.zoom scanned
  cases f m a e <;> rfl

theorem optional_eq {α : Type} (f : Option (Mem → α → Prog σ Halt Unit)) (a : α) (e : σ) :
    optional f a ⟨m, e⟩ =
      scanned m ((f.map fun f => f m a).getD (pure ())) () ⟨m, e⟩ := by
  cases f with
  | none => rfl
  | some f => exact callback_eq f a e

theorem callDone_eq (cb : FdtCb σ) (last : Bool) (path : List FdtScanNode) (e : σ) :
    callDone cb last path ⟨m, e⟩ =
      scanned m (runEvents cb m (doneEvents last path)) () ⟨m, e⟩ := by
  unfold callDone doneEvents
  split_ifs
  · rw [runEvents, runEvents, Prog.bind_pure]
    exact optional_eq cb.done path e
  · rfl

theorem helper_nop (htok : cell m lex = FDT_NOP) :
    fdtScanHelper cb strings (fuel + 1) lex path child last ⟨m, e⟩ =
      fdtScanHelper cb strings fuel (lex + 4) path child last ⟨m, e⟩ := by
  rw [fdtScanHelper, Prog.bind_apply]
  simp only [Prog.gets_apply, htok, if_true]

theorem helper_prop (htok : cell m lex = FDT_PROP) {nameoff len : BitVec 32}
    (hlen : cell m (lex + 4) = len) (hname : cell m (lex + 8) = nameoff)
    {r : Word × List FdtScanNode} {c : Prog σ Halt Unit}
    (hrest : ∀ e, fdtScanHelper cb strings fuel (behindProp lex len)
      (setCells m (strings + nameoff.setWidth 64) (cell m (lex + 12)) path) child false ⟨m, e⟩ =
        scanned m c r ⟨m, e⟩) :
    fdtScanHelper cb strings (fuel + 1) lex path child false ⟨m, e⟩ =
      scanned m (runEvent cb m (.prop
        ⟨setCells m (strings + nameoff.setWidth 64) (cell m (lex + 12)) path,
          strings + nameoff.setWidth 64, lex + 12, len⟩) >>= fun _ => c) r ⟨m, e⟩ := by
  rw [fdtScanHelper, Prog.bind_apply]
  simp only [Prog.gets_apply, htok, hlen, hname, if_true, Bool.false_eq_true, if_false,
    show ¬ FDT_PROP = FDT_NOP from by decide]
  cases hprop : cb.prop with
  | none =>
    simp only [runEvent, hprop]
    rfl
  | some f =>
    simp only [runEvent, hprop]
    exact bind_scanned (callback_eq f _ e) hrest

theorem helper_node (htok : cell m lex = FDT_BEGIN_NODE) (hclose : cb.close = none) {n : ℕ}
    (hlen : strlen m (lex + 4) = some n) {lexNext : Word} {below : List FdtScanNode}
    {r : Word × List FdtScanNode} {c d : Prog σ Halt Unit}
    (hbody : ∀ e, fdtScanHelper cb strings fuel (lex + 8 + BitVec.ofNat 64 (4 * (n / 4)))
      ({ child with name := lex + 4 } :: path) defaultChild false ⟨m, e⟩ =
        scanned m c (lexNext, below) ⟨m, e⟩)
    (hrest : ∀ e, fdtScanHelper cb strings fuel lexNext path
      (below.headD { child with name := lex + 4 }) true ⟨m, e⟩ = scanned m d r ⟨m, e⟩) :
    fdtScanHelper cb strings (fuel + 1) lex path child last ⟨m, e⟩ =
      scanned m (runEvents cb m (doneEvents last path) >>= fun _ =>
        runEvent cb m (.opened ({ child with name := lex + 4 } :: path)) >>= fun _ =>
          c >>= fun _ => d) r ⟨m, e⟩ := by
  rw [fdtScanHelper, Prog.bind_apply]
  simp only [Prog.gets_apply, htok, hlen, if_true, show ¬ FDT_BEGIN_NODE = FDT_NOP from by decide,
    show ¬ FDT_BEGIN_NODE = FDT_PROP from by decide, if_false]
  refine bind_scanned (callDone_eq cb last path e) fun e => ?_
  refine bind_scanned (optional_eq cb.opened _ e) fun e => ?_
  refine bind_scanned (hbody e) fun e => ?_
  simp only [callClose, hclose]
  exact hrest e

/-- Any other token ends the contents. -/
theorem helper_end {t : BitVec 32} (htok : cell m lex = t) (hnop : t ≠ FDT_NOP)
    (hprop : t ≠ FDT_PROP) (hnode : t ≠ FDT_BEGIN_NODE) :
    fdtScanHelper cb strings (fuel + 1) lex path child last ⟨m, e⟩ =
      scanned m (runEvents cb m (doneEvents last path))
        (if t = FDT_END_NODE then lex + 4 else lex, path) ⟨m, e⟩ := by
  rw [fdtScanHelper, Prog.bind_apply]
  simp only [Prog.gets_apply, htok, hnop, hprop, hnode, if_false]
  rw [← Prog.bind_pure (runEvents cb m (doneEvents last path))]
  split_ifs
  · exact bind_scanned (d := pure ()) (callDone_eq cb last path e) fun e => rfl
  · exact bind_scanned (d := pure ()) (callDone_eq cb last path e) fun e => rfl

end Step

/-! ## Whole contents -/

/-- **The scan of a list of contents.** On the encoding of well-formed contents, with a
    token behind them that ends them, the helper makes the calls of `Items.events` and
    returns behind the contents and the token END_NODE. -/
theorem fdtScanHelper_eq {cb : FdtCb σ} (hclose : cb.close = none) (items : Items) :
    ∀ {lex : Word} {path : List FdtScanNode} {child : FdtScanNode} {last : Bool} {fuel : ℕ}
      {t : BitVec 32} {l : List (BitVec 8)} (e : σ), items.WF last →
      BytesAt m lex (items.bytes ++ (be32 t ++ l)) → t = FDT_END_NODE ∨ t = FDT_END →
      items.steps ≤ fuel →
      fdtScanHelper cb strings fuel lex path child last ⟨m, e⟩ =
        scanned m (runEvents cb m (items.events m strings lex path child last))
          (lex + BitVec.ofNat 64 (items.bytes.length + if t = FDT_END_NODE then 4 else 0),
            items.path m strings lex path) ⟨m, e⟩ := by
  induction items with
  | done =>
    intro lex path child last fuel t l e _ hbytes ht hfuel
    cases fuel with
    | zero => simp [Items.steps] at hfuel
    | succ fuel =>
      have hcell : cell m lex = t := cell_of_bytesAt hbytes
      rw [helper_end hcell (by rcases ht with rfl | rfl <;> decide)
        (by rcases ht with rfl | rfl <;> decide) (by rcases ht with rfl | rfl <;> decide)]
      rcases ht with rfl | rfl
      · rfl
      · simp [Items.bytes, Items.path, Items.events, show ¬ FDT_END = FDT_END_NODE from by decide]
  | nop rest ih =>
    intro lex path child last fuel t l e hwf hbytes ht hfuel
    cases fuel with
    | zero => simp [Items.steps] at hfuel
    | succ fuel =>
      rw [Items.bytes, List.append_assoc] at hbytes
      have hrest : BytesAt m (lex + 4) _ := (bytesAt_append.mp hbytes).2
      rw [helper_nop (cell_of_bytesAt hbytes), ih e hwf hrest ht (Nat.le_of_succ_le_succ hfuel)]
      rw [show lex + 4 = lex + BitVec.ofNat 64 4 from rfl, add_ofNat_add, Items.bytes,
        List.length_append, be32_length, Nat.add_assoc]
      rfl
  | prop nameoff value rest ih =>
    intro lex path child last fuel t l e hwf hbytes ht hfuel
    obtain ⟨rfl, hlen, hwf⟩ := hwf
    cases fuel with
    | zero => simp [Items.steps] at hfuel
    | succ fuel =>
      simp only [Items.bytes, List.append_assoc] at hbytes
      have hbytes₁ : BytesAt m (lex + 4) _ := (bytesAt_append.mp hbytes).2
      have hbytes₂ : BytesAt m (lex + 4 + 4) _ := (bytesAt_append.mp hbytes₁).2
      have hbytes₃ : BytesAt m (lex + 4 + 4 + 4) _ := (bytesAt_append.mp hbytes₂).2
      have hrest := (bytesAt_append.mp hbytes₃).2
      rw [pad4_length] at hrest
      have h8 : lex + 4 + 4 = lex + 8 := by rw [BitVec.add_assoc]; rfl
      have h12 : lex + 4 + 4 + 4 = lex + 12 := by rw [BitVec.add_assoc, BitVec.add_assoc]; rfl
      have hend : lex + 12 + BitVec.ofNat 64 (4 * ((value.length + 3) / 4)) =
          lex + BitVec.ofNat 64 (12 + 4 * ((value.length + 3) / 4)) :=
        add_ofNat_add lex 12 _
      rw [h8] at hbytes₂
      rw [h12, hend] at hrest
      rw [helper_prop (cell_of_bytesAt hbytes) (cell_of_bytesAt hbytes₁) (cell_of_bytesAt hbytes₂)
        fun e => by
          rw [behindProp_eq hlen]
          exact ih e hwf hrest ht (Nat.le_of_succ_le_succ hfuel)]
      rw [add_ofNat_add]
      simp only [Items.bytes, List.length_append, be32_length, pad4_length, Items.events,
        Items.path, runEvents]
      congr 4
      omega
  | node name body rest ihb ihr =>
    intro lex path child last fuel t l e hwf hbytes ht hfuel
    obtain ⟨hname, hnlen, hwfb, hwfr⟩ := hwf
    cases fuel with
    | zero => simp [Items.steps] at hfuel
    | succ fuel =>
      simp only [Items.bytes, List.append_assoc] at hbytes
      have hbytes₁ : BytesAt m (lex + 4) _ := (bytesAt_append.mp hbytes).2
      have hbody := (bytesAt_append.mp hbytes₁).2
      have hstr : strlen m (lex + 4) = some name.length := by
        rw [pad4, List.append_assoc] at hbytes₁
        have hstring := (bytesAt_append.mp hbytes₁).1
        rw [strlen, cstring_of_bytesAt hstring hname (by omega)]
        rfl
      have haddr : lex + 4 + BitVec.ofNat 64 (pad4 (name ++ [0])).length =
          Items.bodyAddr lex name := by
        rw [Items.bodyAddr, pad4_length, List.length_append, List.length_singleton]
        rw [show lex + 4 = lex + BitVec.ofNat 64 4 from rfl,
          show lex + 8 = lex + BitVec.ofNat 64 8 from rfl, add_ofNat_add, add_ofNat_add]
        congr 2
        omega
      rw [haddr] at hbody
      have hrest := (bytesAt_append.mp (bytesAt_append.mp hbody).2).2
      rw [be32_length, add_ofNat_add] at hrest
      have hsteps : body.steps + rest.steps ≤ fuel := Nat.le_of_succ_le_succ hfuel
      have hscan : ∀ e, fdtScanHelper cb strings fuel (Items.bodyAddr lex name)
          ({ child with name := lex + 4 } :: path) defaultChild false ⟨m, e⟩ =
          scanned m (runEvents cb m (body.events m strings (Items.bodyAddr lex name)
            ({ child with name := lex + 4 } :: path) defaultChild false))
            (Items.bodyAddr lex name + BitVec.ofNat 64 (body.bytes.length + 4),
              body.path m strings (Items.bodyAddr lex name)
                ({ child with name := lex + 4 } :: path)) ⟨m, e⟩ := by
        intro e
        rw [ihb e hwfb hbody (Or.inl rfl) (by omega), if_pos rfl]
      refine (helper_node (cell_of_bytesAt hbytes) hclose hstr hscan fun e =>
        ihr e hwfr hrest ht (by omega)).trans ?_
      have hend : Items.bodyAddr lex name + BitVec.ofNat 64 (body.bytes.length + 4) +
          BitVec.ofNat 64 (rest.bytes.length + if t = FDT_END_NODE then 4 else 0) =
          lex + BitVec.ofNat 64 ((Items.node name body rest).bytes.length +
            if t = FDT_END_NODE then 4 else 0) := by
        rw [← haddr, show lex + 4 = lex + BitVec.ofNat 64 4 from rfl, add_ofNat_add, add_ofNat_add,
          add_ofNat_add]
        simp only [Items.bytes, List.length_append, be32_length]
        congr 2
        omega
      rw [hend, Items.path_of_wf hwfr]
      simp only [Items.events, runEvents_append, runEvents, Items.path]

/-! ## Whole blobs -/

/-- A blob at `fdt`: a header of the known format, and at the offsets it gives the structure
    block with the contents `items`, ended by the token END. -/
structure BlobAt (m : Mem) (fdt : Word) (items : Items) : Prop where
  magic : cell m fdt = FDT_MAGIC
  version : cell m (fdt + 24) ≤ FDT_VERSION
  struct : BytesAt m (fdt + (cell m (fdt + 8)).setWidth 64) (items.bytes ++ be32 FDT_END)
  wf : items.WF false

/-- The strings block of a blob. -/
def stringsOf (m : Mem) (fdt : Word) : Word := fdt + (cell m (fdt + 12)).setWidth 64

/-- The structure block of a blob. -/
def structOf (m : Mem) (fdt : Word) : Word := fdt + (cell m (fdt + 8)).setWidth 64

/-- **The scan of a blob** makes the calls of its events, whatever the callbacks are. -/
theorem fdtScan_eq {cb : FdtCb σ} (hclose : cb.close = none) {fdt : Word} {items : Items}
    (hblob : BlobAt m fdt items) {fuel : ℕ} (hfuel : items.steps ≤ fuel) (e : σ) :
    fdtScan fuel cb fdt ⟨m, e⟩ = scanned m (runEvents cb m
      (items.events m (stringsOf m fdt) (structOf m fdt) [] defaultChild false)) () ⟨m, e⟩ := by
  have hbytes : BytesAt m (structOf m fdt) (items.bytes ++ (be32 FDT_END ++ [])) := by
    rw [List.append_nil]
    exact hblob.struct
  have hskip : ¬ (cell m fdt ≠ FDT_MAGIC ∨ FDT_VERSION < cell m (fdt + 24)) := by
    rw [not_or, not_not, BitVec.not_lt]
    exact ⟨hblob.magic, hblob.version⟩
  rw [fdtScan, Prog.bind_apply]
  simp only [Prog.gets_apply, hskip, if_false]
  rw [← Prog.bind_pure (runEvents cb m _)]
  exact bind_scanned (d := pure ())
    (fdtScanHelper_eq hclose items e hblob.wf hbytes (Or.inr rfl) hfuel) fun e => rfl

end Pke
