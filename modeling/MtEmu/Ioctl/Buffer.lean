import MtEmu.Ioctl.Dispatch

/-!
# MtEmu.Ioctl.Buffer

The kernel buffer of `MT_IOCTL_BAR_RW` and `MT_IOCTL_CFG_RW`: where a call allocates,
accesses and frees it, and where it accesses the BAR.

`barRwEvents` and `cfgRwEvents` list this for the cases that `barRw` and `doCfgRw` model,
on every way out of them.  `Contained` is what a list should be: every element of the
buffer that is accessed lies in it, every access of the BAR in the BAR, and the buffer is
freed once.  `rw_safe_iff` says when it is: the word loop leaves the buffer unless
the size is a multiple of four, a read of the configuration space then goes on with one
byte behind it, the offset into the BAR is not checked, and the `kfree` of a failed
`copy_from_user` stands behind its `return`.
-/

namespace MtEmu

open Bytes

/-! ## events -/

/-- What a call does with the buffer, the BAR and the configuration space. -/
inductive RwEvent where
  | kmalloc (size : Nat)
  | elem (x : Extent)
  | bar (x : Extent)
  | cfg (x : Extent)
  | kfree
  deriving DecidableEq

namespace RwEvent

/-- The events of an access of `len` bytes at `i` of a `MT_IOCTL_BAR_RW`. -/
def barAccess (p : MtEmuParam) (len i : Nat) : List RwEvent :=
  if barRd = p.b1 then [bar ⟨barOff p.l0 i, len⟩, elem ⟨i, len⟩]
  else [elem ⟨i, len⟩, bar ⟨barOff p.l0 i, len⟩]

/-- The events of an access of `len` bytes at `i` of a `MT_IOCTL_CFG_RW`.
`pci_read_config_*` gets a pointer to the element, and stores there if `stores`: it
refuses a register that is not aligned. -/
def cfgAccess (stores : Nat → Nat → Bool) (p : MtEmuParam) (len i : Nat) : List RwEvent :=
  if barRd = p.b1 then
    cfg ⟨barOff p.l0 i, len⟩ :: if stores (barOff p.l0 i) len then [elem ⟨i, len⟩] else []
  else [elem ⟨i, len⟩, cfg ⟨barOff p.l0 i, len⟩]

end RwEvent

/-- The events of `MT_IOCTL_BAR_RW`.  They go on behind an access that faults. -/
def barRwEvents (p : MtEmuParam) (o : CopyOutcome) : List RwEvent :=
  let accesses := (transfer (fun len i log => some (log ++ RwEvent.barAccess p len i)) p.d0.toNat
    ([] : List RwEvent)).getD []
  if p.b0 ≠ 0 ∧ p.b0 ≠ 2 then []
  else if p.d0 = 0 ∨ p.d0.toNat > qyMaxRw then []
  else
    match o.kmalloc with
    | none => []
    | some _ =>
        if barRd = p.b1 then .kmalloc p.d0.toNat :: (accesses ++ [.kfree])
        else
          match o.fromUser with
          -- the `kfree` here comes after the `return`
          | none => [.kmalloc p.d0.toNat]
          | some _ => .kmalloc p.d0.toNat :: (accesses ++ [.kfree])

/-- The events of `MT_IOCTL_CFG_RW`. -/
def cfgRwEvents (stores : Nat → Nat → Bool) (p : MtEmuParam) (o : CopyOutcome) : List RwEvent :=
  let accesses (last : Nat → Bool) :=
    IoctlDev.cfgTransfer (fun len i log => log ++ RwEvent.cfgAccess stores p len i) p.d0.toNat last
      ([] : List RwEvent)
  if p.d0 = 0 ∨ p.d0.toNat > qyMaxRw then []
  else
    match o.kmalloc with
    | none => []
    | some _ =>
        if barRd = p.b1 then
          .kmalloc p.d0.toNat :: (accesses (· ≤ p.d0.toNat) ++ [.kfree])
        else
          match o.fromUser with
          | none => [.kmalloc p.d0.toNat]
          | some _ => .kmalloc p.d0.toNat :: (accesses (· < p.d0.toNat) ++ [.kfree])

/-- The events of a call; the other commands have no buffer. -/
def rwEvents (stores : Nat → Nat → Bool) (e : IoctlEnv) (cmd : MtIoctl) : List RwEvent :=
  match e.param with
  | none => []
  | some p =>
      match cmd with
      | .barRw => barRwEvents p e.copy
      | .cfgRw => cfgRwEvents stores p e.copy
      | _ => []

/-! ## containment -/

/-- From a buffer of `held` bytes on, if there is one: every element accessed lies in the
buffer and every access of the BAR in its `barSize` bytes, and no buffer is lost or freed
twice. -/
def Contained (barSize : Nat) : Option Nat → List RwEvent → Prop
  | held, [] => held = none
  | none, .kmalloc n :: es => Contained barSize (some n) es
  | some _, .kmalloc _ :: _ => False
  | none, .elem _ :: _ => False
  | some n, .elem x :: es => x.Within 0 n ∧ Contained barSize (some n) es
  | held, .bar x :: es => x.Within 0 barSize ∧ Contained barSize held es
  | held, .cfg _ :: es => Contained barSize held es
  | none, .kfree :: _ => False
  | some _, .kfree :: es => Contained barSize none es

/-- A request that its case refuses. -/
def BarRwRefused (p : MtEmuParam) : Prop :=
  (p.b0 ≠ 0 ∧ p.b0 ≠ 2) ∨ p.d0 = 0 ∨ p.d0.toNat > qyMaxRw

/-- The element that `MT_IOCTL_CFG_RW` reads last: the last word of a size that is no
multiple of four, else the byte behind the buffer. -/
def lastRead (size : Nat) : Extent := ⟨4 * (size / 4), if size % 4 = 0 then 1 else 4⟩

/-- A call keeps to its buffer and to its BAR, and frees what it has allocated. -/
def RwSafe (region : BitVec 8 → Window) (stores : Nat → Nat → Bool) (e : IoctlEnv)
    (cmd : MtIoctl) : Prop :=
  Contained ((e.param.map fun p => (region p.b0).size.toNat).getD 0) none (rwEvents stores e cmd)

/-- When it does. -/
def RwFits (region : BitVec 8 → Window) (stores : Nat → Nat → Bool) (e : IoctlEnv) :
    MtIoctl → Prop
  | .barRw => ∀ p, e.param = some p → ¬BarRwRefused p → e.copy.kmalloc ≠ none →
      (barRd = p.b1 ∨ e.copy.fromUser ≠ none) ∧ p.d0.toNat % 4 = 0 ∧
        p.l0.toNat + p.d0.toNat ≤ (region p.b0).size.toNat
  | .cfgRw => ∀ p, e.param = some p → ¬(p.d0 = 0 ∨ p.d0.toNat > qyMaxRw) →
      e.copy.kmalloc ≠ none →
      if barRd = p.b1 then
        stores (barOff p.l0 (lastRead p.d0.toNat).off) (lastRead p.d0.toNat).len = false
      else e.copy.fromUser ≠ none ∧ p.d0.toNat % 4 = 0
  | _ => True

/-! ## lists of accesses -/

/-- An access that stays where it should. -/
def RwEvent.Inside (barSize size : Nat) : RwEvent → Prop
  | elem x => x.Within 0 size
  | bar x => x.Within 0 barSize
  | cfg _ => True
  | kmalloc _ => False
  | kfree => False

section
variable {barSize size : Nat} {f : Nat → Nat → List RwEvent}

theorem contained_append {as es : List RwEvent} (h : .kfree ∉ as) :
    Contained barSize (some size) (as ++ es) ↔
      (∀ a ∈ as, a.Inside barSize size) ∧ Contained barSize (some size) es := by
  induction as with
  | nil => simp
  | cons a as ih =>
      obtain ⟨hne, hrest⟩ := not_or.mp (List.mem_cons.not.mp h)
      rw [List.cons_append, List.forall_mem_cons, and_assoc, ← ih hrest]
      cases a with
      | kfree => exact absurd rfl hne
      | _ => simp [Contained, RwEvent.Inside]

/-- A buffer that is freed at the end is contained when its accesses are. -/
theorem contained_buffer_iff {as : List RwEvent} (h : .kfree ∉ as) :
    Contained barSize none (.kmalloc size :: (as ++ [.kfree])) ↔
      ∀ a ∈ as, a.Inside barSize size := by
  rw [Contained, contained_append h]
  simp [Contained]

/-- The words of a transfer. -/
def wordEvents (f : Nat → Nat → List RwEvent) (size : Nat) : List RwEvent :=
  (List.range ((size + 3) / 4)).flatMap fun k => f 4 (4 * k)

theorem each_log (n : Nat) (log : List RwEvent) :
    Loop.each n (fun k log => log ++ f 4 (4 * k)) log =
      log ++ (List.range n).flatMap fun k => f 4 (4 * k) := by
  induction n with
  | zero => simp [Loop.each]
  | succ n ih =>
      rw [Loop.each, ih, List.range_succ, List.flatMap_append, List.flatMap_singleton,
        List.append_assoc]

/-- The BAR transfer is all words. -/
theorem transfer_log (f : Nat → Nat → List RwEvent) (size : Nat) :
    (transfer (fun len i log => some (log ++ f len i)) size ([] : List RwEvent)).getD [] =
      wordEvents f size := by
  have hsome : ∀ (n : Nat) (log : List RwEvent),
      Loop.each n (fun k s => s.bind fun log => some (log ++ f 4 (4 * k))) (some log) =
        some (Loop.each n (fun k log => log ++ f 4 (4 * k)) log) := by
    intro n log
    induction n with
    | zero => rfl
    | succ n ih => rw [Loop.each, ih, Loop.each, Option.bind_some]
  rw [transfer_eq, hsome, each_log, Option.getD_some, List.nil_append, wordEvents]

/-- The configuration transfer is all words, and the last byte if it is made. -/
theorem cfgTransfer_log (f : Nat → Nat → List RwEvent) (size : Nat) (last : Nat → Bool) :
    IoctlDev.cfgTransfer (fun len i log => log ++ f len i) size last ([] : List RwEvent) =
      wordEvents f size ++
        if last (4 * ((size + 3) / 4)) then f 1 (4 * ((size + 3) / 4)) else [] := by
  have hword : ¬4 * ((size + 3) / 4) + 2 ≤ size := by omega
  simp only [IoctlDev.cfgTransfer, if_neg hword, each_log, List.nil_append, wordEvents]
  split
  · rfl
  · rw [List.append_nil]

theorem forall_mem_wordEvents {P : RwEvent → Prop} :
    (∀ a ∈ wordEvents f size, P a) ↔ ∀ k < (size + 3) / 4, ∀ a ∈ f 4 (4 * k), P a := by
  simp only [wordEvents, List.mem_flatMap, List.mem_range]
  constructor
  · intro h k hk a ha
    exact h a ⟨k, hk, ha⟩
  · intro h a ⟨k, hk, ha⟩
    exact h k hk a ha

end

/-! ## bounds -/

/-- The words of a size lie in a buffer of that size when the size is a multiple of four. -/
theorem words_inside_iff (size : Nat) :
    (∀ k < (size + 3) / 4, 4 * k + 4 ≤ size) ↔ size % 4 = 0 := by
  rw [← wordAccesses_within 0]
  simp [wordAccesses, Extent.Within]

/-- The words of a request lie in the BAR when its range does. -/
theorem bar_words_inside_iff {offset : U64} {size barSize : Nat} (hpos : 0 < size)
    (h4 : size % 4 = 0) (hbar : barSize < 0x10000000000000000) :
    (∀ k < (size + 3) / 4, barOff offset (4 * k) + 4 ≤ barSize) ↔
      offset.toNat + size ≤ barSize := by
  constructor
  · intro h
    -- word by word the offset does not wrap, as the BAR is behind the word before
    have hup : ∀ k, k < (size + 3) / 4 → offset.toNat + 4 * k + 4 ≤ barSize := by
      intro k hk
      induction k with
      | zero =>
          have hword := h 0 hk
          rw [barOff_eq (by have := offset.isLt; omega)] at hword
          omega
      | succ k ih =>
          have hprev := ih (by omega)
          have hword := h (k + 1) hk
          rw [barOff_eq (by omega)] at hword
          omega
    have hlast := hup ((size + 3) / 4 - 1) (by omega)
    omega
  · intro h k hk
    rw [barOff_eq (by omega)]
    omega

section
variable {barSize : Nat} {p : MtEmuParam} {stores : Nat → Nat → Bool}

theorem barAccess_inside_iff (len i : Nat) :
    (∀ a ∈ RwEvent.barAccess p len i, a.Inside barSize p.d0.toNat) ↔
      i + len ≤ p.d0.toNat ∧ barOff p.l0 i + len ≤ barSize := by
  unfold RwEvent.barAccess
  split
  · simp [RwEvent.Inside, Extent.Within, and_comm]
  · simp [RwEvent.Inside, Extent.Within]

theorem cfgAccess_inside_iff (len i : Nat) :
    (∀ a ∈ RwEvent.cfgAccess stores p len i, a.Inside barSize p.d0.toNat) ↔
      ((barRd = p.b1 → stores (barOff p.l0 i) len = true) → i + len ≤ p.d0.toNat) := by
  unfold RwEvent.cfgAccess
  by_cases hrd : barRd = p.b1
  · rw [if_pos hrd]
    cases stores (barOff p.l0 i) len <;> simp [RwEvent.Inside, Extent.Within, hrd]
  · rw [if_neg hrd]
    simp [RwEvent.Inside, Extent.Within, hrd]

/-- The accesses of a BAR request. -/
theorem bar_inside_iff (hpos : 0 < p.d0.toNat) (hbar : barSize < 0x10000000000000000) :
    (∀ a ∈ wordEvents (RwEvent.barAccess p) p.d0.toNat, a.Inside barSize p.d0.toNat) ↔
      p.d0.toNat % 4 = 0 ∧ p.l0.toNat + p.d0.toNat ≤ barSize := by
  simp only [forall_mem_wordEvents, barAccess_inside_iff, forall_and]
  rw [words_inside_iff]
  exact and_congr_right fun h4 => bar_words_inside_iff hpos h4 hbar

/-- The accesses of a write to the configuration space. -/
theorem cfgWrite_inside_iff (hwr : barRd ≠ p.b1) :
    (∀ a ∈ wordEvents (RwEvent.cfgAccess stores p) p.d0.toNat, a.Inside barSize p.d0.toNat) ↔
      p.d0.toNat % 4 = 0 := by
  simp only [forall_mem_wordEvents, cfgAccess_inside_iff, hwr, false_implies, true_implies]
  exact words_inside_iff _

/-- The accesses of a read of the configuration space. -/
theorem cfgRead_inside_iff (hrd : barRd = p.b1) :
    (∀ a ∈ wordEvents (RwEvent.cfgAccess stores p) p.d0.toNat ++
        if 4 * ((p.d0.toNat + 3) / 4) ≤ p.d0.toNat then
          RwEvent.cfgAccess stores p 1 (4 * ((p.d0.toNat + 3) / 4)) else [],
      a.Inside barSize p.d0.toNat) ↔
      stores (barOff p.l0 (lastRead p.d0.toNat).off) (lastRead p.d0.toNat).len = false := by
  have hread : ∀ len i, (∀ a ∈ RwEvent.cfgAccess stores p len i, a.Inside barSize p.d0.toNat) ↔
      (stores (barOff p.l0 i) len = true → i + len ≤ p.d0.toNat) := by
    intro len i
    rw [cfgAccess_inside_iff]
    simp only [hrd, true_implies]
  simp only [List.forall_mem_append, forall_mem_wordEvents, hread]
  unfold lastRead
  by_cases h4 : p.d0.toNat % 4 = 0
  · -- all words are in the buffer, and the byte behind it is read
    have hend : 4 * ((p.d0.toNat + 3) / 4) = 4 * (p.d0.toNat / 4) := by omega
    have hout : ¬4 * (p.d0.toNat / 4) + 1 ≤ p.d0.toNat := by omega
    rw [if_pos h4, if_pos (by omega), hread, hend, ← Bool.not_eq_true]
    constructor
    · intro h hstores
      exact hout (h.2 hstores)
    · intro hno
      refine ⟨fun k hk _ => ?_, fun hstores => absurd hstores hno⟩
      omega
  · -- the last word leaves the buffer, and no byte is read
    rw [if_neg h4, if_neg (by omega), ← Bool.not_eq_true]
    constructor
    · intro h hstores
      have hlast := h.1 (p.d0.toNat / 4) (by omega) hstores
      omega
    · intro hno
      refine ⟨fun k hk hstores => ?_, by simp⟩
      have hk' : k ≠ p.d0.toNat / 4 := by
        intro heq
        exact hno (heq ▸ hstores)
      omega

end

/-! ## the events are what happens -/

section
variable {τ : Type}

/-- The BAR accesses of a list of events. -/
def barExtents (es : List RwEvent) : List Extent :=
  es.filterMap fun
    | .bar x => some x
    | _ => none

/-- What accesses to a window in the variables lead to: a fault if one leaves its `m` bytes,
else they are logged. -/
def Accesses (win : τ → Window) (m : Nat) (xs : List Extent) (s : τ) : Option τ → Prop
  | none => ∃ x ∈ xs, ¬x.Within 0 m
  | some s' => (∀ x ∈ xs, x.Within 0 m) ∧ (win s').size = (win s).size ∧
      (win s').log = (win s).log ++ xs

/-- A loop makes the accesses of its rounds. -/
theorem accesses_each {acc : Nat → τ → Option τ} {win : τ → Window} {ext : Nat → Extent} {m : Nat}
    (hacc : ∀ k s, (win s).size.toNat = m → Accesses win m [ext k] s (acc k s)) (n : Nat) (s : τ)
    (hs : (win s).size.toNat = m) :
    Accesses win m ((List.range n).map ext) s
      (Loop.each n (fun k s => s.bind (acc k)) (some s)) := by
  induction n with
  | zero => simp [Loop.each, Accesses]
  | succ n ih =>
      rw [Loop.each, List.range_succ, List.map_append]
      cases heach : Loop.each n (fun k s => s.bind (acc k)) (some s) with
      | none =>
          rw [heach] at ih
          obtain ⟨x, hx, hout⟩ := ih
          exact ⟨x, List.mem_append_left _ hx, hout⟩
      | some t =>
          rw [heach] at ih
          obtain ⟨hin, hsize, hlog⟩ := ih
          have hstep := hacc n t (by rw [hsize, hs])
          rw [Option.bind_some]
          cases hn : acc n t with
          | none =>
              rw [hn] at hstep
              obtain ⟨x, hx, hout⟩ := hstep
              exact ⟨x, List.mem_append_right _ hx, hout⟩
          | some u =>
              rw [hn] at hstep
              obtain ⟨hin', hsize', hlog'⟩ := hstep
              refine ⟨List.forall_mem_append.mpr ⟨hin, hin'⟩, hsize'.trans hsize, ?_⟩
              rw [hlog', hlog, List.append_assoc]
              rfl

end

theorem barExtents_cons_append (size : Nat) (es : List RwEvent) :
    barExtents (.kmalloc size :: (es ++ [.kfree])) = barExtents es := by
  simp [barExtents]

/-- The BAR accesses of the words of a request. -/
theorem barExtents_words (p : MtEmuParam) (size : Nat) :
    barExtents (wordEvents (RwEvent.barAccess p) size) =
      (List.range ((size + 3) / 4)).map fun k => ⟨barOff p.l0 (4 * k), 4⟩ := by
  have hone : ∀ k, barExtents (RwEvent.barAccess p 4 (4 * k)) = [⟨barOff p.l0 (4 * k), 4⟩] := by
    intro k
    unfold RwEvent.barAccess
    split <;> rfl
  rw [wordEvents]
  induction List.range ((size + 3) / 4) with
  | nil => rfl
  | cons k ks ih =>
      have happ : ∀ es fs, barExtents (es ++ fs) = barExtents es ++ barExtents fs :=
        fun es fs => List.filterMap_append
      rw [List.flatMap_cons, happ, hone, ih]
      rfl

theorem within_zero_iff (off len m : Nat) : Extent.Within ⟨off, len⟩ 0 m ↔ off + len ≤ m := by
  simp [Extent.Within]

/-- An access of `readl`. -/
theorem accesses_barReadAt (offset : U64) {m : Nat} (k : Nat) (s : Window × Mem)
    (hs : s.1.size.toNat = m) :
    Accesses Prod.fst m [⟨barOff offset (4 * k), 4⟩] s (barReadAt offset 4 (4 * k) s) := by
  unfold barReadAt Window.read
  rw [hs]
  by_cases hin : barOff offset (4 * k) + 4 ≤ m
  · rw [if_pos hin]
    simp [Accesses, within_zero_iff, hin]
  · rw [if_neg hin]
    simp [Accesses, within_zero_iff, hin]

/-- An access of `writel`. -/
theorem accesses_barWriteAt (offset : U64) (data : Mem) {m : Nat} (k : Nat) (w : Window)
    (hw : w.size.toNat = m) :
    Accesses id m [⟨barOff offset (4 * k), 4⟩] w (barWriteAt offset data 4 (4 * k) w) := by
  unfold barWriteAt Window.write
  rw [hw]
  by_cases hin : barOff offset (4 * k) + 4 ≤ m
  · rw [if_pos hin]
    simp [Accesses, within_zero_iff, hin]
  · rw [if_neg hin]
    simp [Accesses, within_zero_iff, hin]

/-- The accesses to a BAR, seen in the table of BARs that a request leaves. -/
theorem Accesses.update {τ : Type} {win : τ → Window} {m : Nat} {xs : List Extent} {s : τ}
    {run : Option τ} (h : Accesses win m xs s run) {region : BitVec 8 → Window} {bar : BitVec 8}
    {f : τ → BarRwResult} (hf : ∀ s, (f s).region = Function.update region bar (win s))
    (hs : win s = region bar) :
    Accesses (· bar) m xs region ((run.map f).map BarRwResult.region) := by
  cases run with
  | none => exact h
  | some s' =>
      obtain ⟨hin, hsize, hlog⟩ := h
      refine ⟨hin, ?_, ?_⟩
      · simp only [hf, Function.update_self, hsize, hs]
      · simp only [hf, Function.update_self, hlog, hs]

/-- `barRw` makes the accesses of `barRwEvents`: it faults when one leaves the BAR, and logs
them all when it does not. -/
theorem accesses_barRw (region : BitVec 8 → Window) (p : MtEmuParam) (o : CopyOutcome) :
    Accesses (· p.b0) (region p.b0).size.toNat (barExtents (barRwEvents p o)) region
      ((barRw region p o).map BarRwResult.region) := by
  have hnil : ∀ size : Option Nat, Accesses (· p.b0) (region p.b0).size.toNat
      (barExtents (size.toList.map .kmalloc)) region (some region) := by
    intro size
    cases size <;> simp [barExtents, Accesses]
  simp only [barRw, barRwEvents, transfer_log]
  by_cases hbar : p.b0 ≠ 0 ∧ p.b0 ≠ 2
  · rw [if_pos hbar, if_pos hbar]
    exact hnil none
  · rw [if_neg hbar, if_neg hbar]
    by_cases hsize : p.d0 = 0 ∨ p.d0.toNat > qyMaxRw
    · rw [if_pos hsize, if_pos hsize]
      exact hnil none
    · rw [if_neg hsize, if_neg hsize]
      cases o.kmalloc with
      | none => exact hnil none
      | some buf =>
          by_cases hrd : barRd = p.b1
          · simp only [if_pos hrd, barExtents_cons_append, barExtents_words, transfer_eq]
            exact (accesses_each (accesses_barReadAt p.l0) _ (region p.b0, buf) rfl).update
              (fun _ => rfl) rfl
          · simp only [if_neg hrd]
            cases o.fromUser with
            | none => exact hnil (some _)
            | some data =>
                simp only [barExtents_cons_append, barExtents_words, transfer_eq]
                exact (accesses_each (accesses_barWriteAt p.l0 data) _ (region p.b0) rfl).update
                  (fun _ => rfl) rfl

/-- The calls for the configuration space of a list of events. -/
def cfgCalls (es : List RwEvent) : List IoctlCall :=
  es.filterMap fun
    | .cfg x => some (.cfg x.off x.len)
    | _ => none

@[simp] theorem cfgCalls_append (es fs : List RwEvent) :
    cfgCalls (es ++ fs) = cfgCalls es ++ cfgCalls fs := List.filterMap_append

@[simp] theorem cfgCalls_kmalloc_kfree (size : Nat) (es : List RwEvent) :
    cfgCalls (.kmalloc size :: (es ++ [.kfree])) = cfgCalls es := by
  simp [cfgCalls]

@[simp] theorem cfgCalls_cfgAccess (stores : Nat → Nat → Bool) (p : MtEmuParam) (len i : Nat) :
    cfgCalls (RwEvent.cfgAccess stores p len i) = [.cfg (barOff p.l0 i) len] := by
  unfold RwEvent.cfgAccess
  split
  · split <;> rfl
  · rfl

/-- Two transfers whose accesses keep a relation keep it. -/
theorem cfgTransfer_rel {σ τ : Type} {f : Nat → Nat → σ → σ} {g : Nat → Nat → τ → τ}
    (rel : σ → τ → Prop) (haccess : ∀ len i s t, rel s t → rel (f len i s) (g len i t)) {s : σ}
    {t : τ} (h0 : rel s t) (size : Nat) (last : Nat → Bool) :
    rel (IoctlDev.cfgTransfer f size last s) (IoctlDev.cfgTransfer g size last t) := by
  have hloop : rel (Loop.each ((size + 3) / 4) (fun k s => f 4 (4 * k) s) s)
      (Loop.each ((size + 3) / 4) (fun k t => g 4 (4 * k) t) t) := by
    induction (size + 3) / 4 with
    | zero => exact h0
    | succ n ih => exact haccess _ _ _ _ ih
  unfold IoctlDev.cfgTransfer
  dsimp only
  split <;> dsimp only <;> split
  · exact haccess _ _ _ _ (haccess _ _ _ _ hloop)
  · exact haccess _ _ _ _ hloop
  · exact haccess _ _ _ _ hloop
  · exact hloop

/-- `doCfgRw` makes the calls of `cfgRwEvents`. -/
theorem cfgCalls_doCfgRw (stores : Nat → Nat → Bool) (d : IoctlDev) (e : IoctlEnv)
    (p : MtEmuParam) {r : IoctlResult} (h : d.doCfgRw e p = .ok r) :
    r.dev.calls = d.calls ++ cfgCalls (cfgRwEvents stores p e.copy) := by
  have hkeep : ∀ (calls : List IoctlCall) (log : List RwEvent) (len i : Nat),
      calls = d.calls ++ cfgCalls log →
        calls ++ [.cfg (barOff p.l0 i) len] =
          d.calls ++ cfgCalls (log ++ RwEvent.cfgAccess stores p len i) := by
    intro calls log len i hcalls
    rw [hcalls, cfgCalls_append, cfgCalls_cfgAccess, List.append_assoc]
  have hzero : d.calls = d.calls ++ cfgCalls [] := (List.append_nil _).symm
  unfold IoctlDev.doCfgRw at h
  unfold cfgRwEvents
  by_cases hsize : p.d0 = 0 ∨ p.d0.toNat > qyMaxRw
  · rw [if_pos hsize] at h
    contradiction
  · rw [if_neg hsize] at h ⊢
    cases hk : e.copy.kmalloc with
    | none =>
        rw [hk] at h
        contradiction
    | some buf =>
        rw [hk] at h
        by_cases hrd : barRd = p.b1
        · simp only [if_pos hrd, Except.ok.injEq] at h ⊢
          rw [← h, cfgCalls_kmalloc_kfree]
          exact cfgTransfer_rel (fun (s : IoctlDev × Mem) log => s.1.calls = d.calls ++ cfgCalls log)
            (fun len i s log hs => hkeep _ log len i hs) hzero _ _
        · simp only [if_neg hrd] at h ⊢
          cases hu : e.copy.fromUser with
          | none =>
              rw [hu] at h
              contradiction
          | some data =>
              rw [hu] at h
              simp only [Except.ok.injEq] at h ⊢
              rw [← h, cfgCalls_kmalloc_kfree]
              refine cfgTransfer_rel (fun (d' : IoctlDev) log => d'.calls = d.calls ++ cfgCalls log)
                (fun len i d' log hs => ?_) hzero _ _
              rw [← hkeep _ log len i hs, IoctlDev.cfgWriteAt]
              split <;> rfl

/-! ## the calls -/

theorem kfree_not_mem_barAccess (p : MtEmuParam) (len i : Nat) :
    .kfree ∉ RwEvent.barAccess p len i := by
  unfold RwEvent.barAccess
  split <;> simp

theorem kfree_not_mem_cfgAccess (stores : Nat → Nat → Bool) (p : MtEmuParam) (len i : Nat) :
    .kfree ∉ RwEvent.cfgAccess stores p len i := by
  unfold RwEvent.cfgAccess
  split
  · split <;> simp
  · simp

theorem kfree_not_mem_wordEvents {f : Nat → Nat → List RwEvent} (h : ∀ len i, .kfree ∉ f len i)
    (size : Nat) : .kfree ∉ wordEvents f size := by
  intro hmem
  obtain ⟨k, -, hk⟩ := List.mem_flatMap.mp hmem
  exact h _ _ hk

/-- A call that returns without an event is contained, one that returns without its `kfree`
is not. -/
theorem contained_nil (barSize : Nat) : Contained barSize none [] := rfl

theorem not_contained_leak (barSize size : Nat) :
    ¬Contained barSize none [.kmalloc size] := by
  simp [Contained]

variable {region : BitVec 8 → Window} {stores : Nat → Nat → Bool} {p : MtEmuParam}
  {o : CopyOutcome}

/-- A size that is not refused is positive. -/
theorem pos_of_not_refused (h : ¬(p.d0 = 0 ∨ p.d0.toNat > qyMaxRw)) : 0 < p.d0.toNat :=
  BitVec.toNat_pos_of_ne_zero fun h0 => h (.inl h0)

/-- When a BAR request is contained. -/
theorem barRw_contained_iff :
    Contained (region p.b0).size.toNat none (barRwEvents p o) ↔
      (¬BarRwRefused p → o.kmalloc ≠ none →
        (barRd = p.b1 ∨ o.fromUser ≠ none) ∧ p.d0.toNat % 4 = 0 ∧
          p.l0.toNat + p.d0.toNat ≤ (region p.b0).size.toNat) := by
  simp only [barRwEvents, transfer_log]
  by_cases href : BarRwRefused p
  · have hnil : ∀ es : List RwEvent, (if p.b0 ≠ 0 ∧ p.b0 ≠ 2 then []
        else if p.d0 = 0 ∨ p.d0.toNat > qyMaxRw then [] else es) = [] := by
      intro es
      cases href with
      | inl hbar => rw [if_pos hbar]
      | inr hsize => rw [if_pos hsize, ite_self]
    rw [hnil]
    exact iff_of_true (contained_nil _) fun h => absurd href h
  · obtain ⟨hbar, hsize⟩ := not_or.mp href
    rw [if_neg hbar, if_neg hsize, imp_iff_right href]
    have hinside := bar_inside_iff (pos_of_not_refused hsize) (region p.b0).size.isLt
    have hfree := kfree_not_mem_wordEvents (kfree_not_mem_barAccess p) p.d0.toNat
    cases o.kmalloc with
    | none => exact iff_of_true (contained_nil _) fun h => absurd rfl h
    | some buf =>
        by_cases hrd : barRd = p.b1
        · simp only [if_pos hrd, contained_buffer_iff hfree, hinside]
          simp [hrd]
        · rw [if_neg hrd]
          cases o.fromUser with
          | none => simp [Contained, hrd]
          | some data =>
              simp only [contained_buffer_iff hfree, hinside]
              simp

/-- When a request for the configuration space is contained. -/
theorem cfgRw_contained_iff (barSize : Nat) :
    Contained barSize none (cfgRwEvents stores p o) ↔
      (¬(p.d0 = 0 ∨ p.d0.toNat > qyMaxRw) → o.kmalloc ≠ none →
        if barRd = p.b1 then
          stores (barOff p.l0 (lastRead p.d0.toNat).off) (lastRead p.d0.toNat).len = false
        else o.fromUser ≠ none ∧ p.d0.toNat % 4 = 0) := by
  simp only [cfgRwEvents, cfgTransfer_log]
  by_cases hsize : p.d0 = 0 ∨ p.d0.toNat > qyMaxRw
  · rw [if_pos hsize]
    exact iff_of_true (contained_nil _) fun h => absurd hsize h
  · rw [if_neg hsize, imp_iff_right hsize]
    have hfree := kfree_not_mem_wordEvents (kfree_not_mem_cfgAccess stores p) p.d0.toNat
    cases o.kmalloc with
    | none => exact iff_of_true (contained_nil _) fun h => absurd rfl h
    | some buf =>
        by_cases hrd : barRd = p.b1
        · have htail : .kfree ∉ wordEvents (RwEvent.cfgAccess stores p) p.d0.toNat ++
              if 4 * ((p.d0.toNat + 3) / 4) ≤ p.d0.toNat then
                RwEvent.cfgAccess stores p 1 (4 * ((p.d0.toNat + 3) / 4)) else [] := by
            rw [List.mem_append, not_or]
            refine ⟨hfree, ?_⟩
            split
            · exact kfree_not_mem_cfgAccess _ _ _ _
            · simp
          simp only [if_pos hrd, decide_eq_true_eq]
          rw [contained_buffer_iff htail, cfgRead_inside_iff hrd]
          simp
        · simp only [if_neg hrd]
          cases o.fromUser with
          | none => simp [Contained]
          | some data =>
              have hlast : ¬4 * ((p.d0.toNat + 3) / 4) < p.d0.toNat := by omega
              simp only [hlast, decide_false, Bool.false_eq_true, if_false, List.append_nil]
              rw [contained_buffer_iff hfree, cfgWrite_inside_iff hrd]
              simp

/-- **Bounds and balance**: a call keeps to its buffer and to its BAR and frees what it has
allocated exactly when it is refused, or it can read the user's data if it needs them and has
a size that is a multiple of four and, for a BAR, a range inside it; a read of the
configuration space only when the last element is not stored. -/
theorem rw_safe_iff (region : BitVec 8 → Window) (stores : Nat → Nat → Bool) (e : IoctlEnv)
    (cmd : MtIoctl) : RwSafe region stores e cmd ↔ RwFits region stores e cmd := by
  unfold RwSafe rwEvents RwFits
  cases e.param with
  | none => cases cmd <;> simp [Contained]
  | some p =>
      simp only [Option.some.injEq, forall_eq', Option.map_some, Option.getD_some]
      cases cmd with
      | barRw => exact barRw_contained_iff
      | cfgRw => exact cfgRw_contained_iff _
      | _ => exact iff_of_true rfl trivial

/-- A call with parameters `p` and copies `o`. -/
def rwCall (p : MtEmuParam) (o : CopyOutcome) : IoctlEnv where
  mbox := false
  vfNum := 0
  param := some p
  copy := o
  setPower s _ := s
  waited := 0
  softPending := false
  irqInit := 0
  rom := false
  bareRw := none
  dmaBareXfer := 0
  mtdmaRw := none
  emuDmaRw := 0

/-- Registers that are aligned are read. -/
def aligned (off len : Nat) : Bool := off % len = 0

/-- With BARs of 4096 bytes: a write of one word whose data cannot be read loses the buffer,
a read of one byte stores four, a read behind the BAR is made, and a read of one word of the
configuration space stores a fifth byte. -/
theorem rw_unsafe :
    ¬RwSafe someBars aligned (rwCall ⟨0, 0, 4, 0⟩ ⟨some fun _ => 0, none, 0, 0⟩) .barRw ∧
    ¬RwSafe someBars aligned (rwCall ⟨0, 1, 1, 0⟩ (.done (fun _ => 0) fun _ => 0)) .barRw ∧
    ¬RwSafe someBars aligned (rwCall ⟨0, 1, 4, 4096⟩ (.done (fun _ => 0) fun _ => 0)) .barRw ∧
    ¬RwSafe someBars aligned (rwCall ⟨0, 1, 4, 0⟩ (.done (fun _ => 0) fun _ => 0)) .cfgRw := by
  refine ⟨?_, ?_, ?_, ?_⟩
  · exact not_contained_leak 4096 4
  · intro h
    have hone : Contained 4096 none [.kmalloc 1, .bar ⟨0, 4⟩, .elem ⟨0, 4⟩, .kfree] := h
    simp [Contained, Extent.Within] at hone
  · intro h
    have hbehind : Contained 4096 none [.kmalloc 4, .bar ⟨4096, 4⟩, .elem ⟨0, 4⟩, .kfree] := h
    simp [Contained, Extent.Within] at hbehind
  · intro h
    have hfifth : Contained 4096 none [.kmalloc 4, .cfg ⟨0, 4⟩, .elem ⟨0, 4⟩, .cfg ⟨4, 1⟩,
      .elem ⟨4, 1⟩, .kfree] := h
    simp [Contained, Extent.Within] at hfifth

end MtEmu
