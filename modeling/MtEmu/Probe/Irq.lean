import MtEmu.Lib.Ledger
import MtEmu.Lib.Loop
import MtEmu.Lib.Machine
import MtEmu.Engine.Owner

/-!
# MtEmu.Probe.Irq

The interrupt vectors of a device: `irq_init` and `qy_free_irq` (`mt-emu-ioctl.c`).

`irq_init` starts from nothing, since it calls `qy_free_irq` first, and stops where a
call fails; what it has by then is in `vec_num` and `irq_allocated`, from which
`qy_free_irq` gives it back.  `log` lists what was acquired and released;
`irq_life_cycle` says that the log is in order over any calls and that the two
fields say what is held.
-/

namespace MtEmu

open Ledger Machine

/-! ## the device -/

/-- The vectors of `pci_alloc_irq_vectors` and the interrupts requested on them. -/
inductive IrqRes where
  | vectors
  | irq (i : Nat)
  deriving DecidableEq

/-- A requested interrupt needs the vectors. -/
inductive IrqRes.Needs : IrqRes → IrqRes → Prop
  | irq (i : Nat) : Needs (.irq i) .vectors

/-- The registers of the interrupt mux that `irq_init` writes. -/
inductive IntMux where
  | srcSoft
  | targetSoft
  | enable
  deriving DecidableEq

/-- A write to register `idx` of the mux, that of a virtual function or the one of the
physical function. -/
structure MuxWrite where
  vf : Bool
  reg : IntMux
  idx : Nat
  val : U32
  deriving DecidableEq

/-- What `irq_init` and `qy_free_irq` use of `struct emu_pcie`; `intDone` are the counts
of the completions. -/
structure IrqDev where
  type : MtEmuType
  irqType : Int
  irqTestMode : Int
  vecNum : Nat
  irqVector : Int
  irqAllocated : Nat → Bool
  intDone : Nat → Nat
  mux : List MuxWrite
  log : List (Event IrqRes)

/-- What the calls of `irq_init` return: `pci_alloc_irq_vectors`, `pci_irq_vector` for
vector 0, and `request_irq` for each vector. -/
structure IrqOutcome where
  alloc : Int
  vector : Int
  request : Nat → Int

/-- All the vectors and interrupts are given. -/
def IrqOutcome.Ok (o : IrqOutcome) : Prop :=
  1 ≤ o.alloc ∧ ∀ i < o.alloc.toNat, o.request i = 0

namespace IrqDev

/-- The resources held. -/
def held (d : IrqDev) : IrqRes → Bool := after (fun _ => false) d.log

/-- One more event. -/
def note (d : IrqDev) (e : Event IrqRes) : IrqDev := { d with log := d.log ++ [e] }

/-- `irq_allocated` of a vector. -/
def setIrq (d : IrqDev) (i : Nat) (allocated : Bool) : IrqDev :=
  { d with irqAllocated := Function.update d.irqAllocated i allocated }

/-! ## `qy_free_irq` -/

/-- `free_irq` of a vector that has one. -/
def freeIrq (d : IrqDev) (irq : Nat) : IrqDev :=
  if d.irqAllocated irq = true then (d.note (.release (.irq irq))).setIrq irq false else d

/-- The loop of `qy_free_irq`. -/
def freeIrqs (d : IrqDev) : IrqDev := Loop.each d.vecNum (fun irq d => d.freeIrq irq) d

/-- `pci_free_irq_vectors` of a device that has some. -/
def freeVectors (d : IrqDev) : IrqDev :=
  if d.vecNum > 0 then d.note (.release .vectors) else d

/-- `qy_free_irq`. -/
def qyFreeIrq (d : IrqDev) : IrqDev := { d.freeIrqs.freeVectors with vecNum := 0, irqType := 0 }

/-! ## `irq_init` -/

/-- `ph_vectors_max`: one vector for `IRQ_LEGACY`, else `QY_GPU_VECTORS`,
`QY_AUD_VECTORS` or `QY_VPU_VECTORS`. -/
def phVectorsMax (t : MtEmuType) (type : Int) : Nat :=
  if type = 1 then 1
  else match t with
    | .gpu => 32
    | .apu => 1
    | .vgpu => 8

/-- The values that enable the targets of a virtual function. -/
def vfEnables : List U32 := [0x1, 0x2, 0x4, 0x8, 0x10, 0x20, 0x0, 0x0]

/-- The writes to the mux for `ret` vectors. -/
def muxWrites (ret : Nat) : MtEmuType → List MuxWrite
  | .vgpu =>
      (List.range 4).map (⟨true, .srcSoft, ·, 0⟩) ++
      (List.range 8).map (⟨true, .targetSoft, ·, 0⟩) ++
      vfEnables.zipIdx.map fun (val, i) => ⟨true, .enable, i, val⟩
  | .gpu =>
      (List.range 256).map (⟨false, .srcSoft, ·, 0⟩) ++
      (List.range 32).map (⟨false, .targetSoft, ·, 0⟩) ++
      (List.range 8).map (⟨false, .enable, ·, 0xffffffff⟩) ++
      (List.range' 8 (ret * 8 - 8)).map (⟨false, .enable, ·, 0⟩)
  | .apu => []

/-- The loop of `request_irq`, for `n` vectors from vector `i` on. -/
def requestIrqs (request : Nat → Int) : Nat → Nat → IrqDev → IrqDev × Int
  | 0, _, d => (d, 0)
  | n + 1, i, d =>
      if request i ≠ 0 then (d, request i)
      else requestIrqs request n (i + 1) ((d.note (.acquire (.irq i))).setIrq i true)

/-- `pci_alloc_irq_vectors`: the vectors are there when it returns a number of them. -/
def allocVectors (d : IrqDev) (alloc : Int) : IrqDev :=
  if alloc < 1 then d else d.note (.acquire .vectors)

/-- The fields and the mux for the vectors. -/
def setVectors (d : IrqDev) (type testMode : Int) (o : IrqOutcome) : IrqDev :=
  { d with
    irqTestMode := testMode
    irqType := type
    vecNum := o.alloc.toNat
    mux := d.mux ++ muxWrites o.alloc.toNat d.type
    irqVector := o.vector }

/-- `reinit_completion` of the first `max` completions. -/
def reinit (d : IrqDev) (max : Nat) : IrqDev :=
  { d with intDone := fun i => if i < max then 0 else d.intDone i }

/-- `irq_init`; `IRQ_DISABLE`, `_LEGACY`, `_MSI` and `_MSIX` are 0, 1, 2 and 4. -/
def irqInit (d : IrqDev) (type testMode : Int) (o : IrqOutcome) : IrqDev × Int :=
  let d := d.qyFreeIrq
  if type = 0 then (d, 0)
  else if type ≠ 1 ∧ type ≠ 2 ∧ type ≠ 4 then (d, -1)
  else if d.type = .vgpu ∧ type = 1 then (d, -1)
  else
    let max := phVectorsMax d.type type
    let d := d.allocVectors o.alloc
    if o.alloc < 1 ∨ o.alloc > max then (d, o.alloc)
    else
      let r := requestIrqs o.request o.alloc.toNat 0 (d.setVectors type testMode o)
      if r.2 ≠ 0 then r else (r.1.reinit max, 0)

/-! ## runs -/

/-- A call. -/
inductive Act where
  | init (type testMode : Int) (o : IrqOutcome)
  | free

/-- The device after a call. -/
def step (d : IrqDev) : Act → Option IrqDev
  | .init type testMode o => some (d.irqInit type testMode o).1
  | .free => some d.qyFreeIrq

/-- `pci_alloc_irq_vectors` returns an error or from 1 to as many vectors as asked for. -/
def AllocOk (d : IrqDev) : Act → Prop
  | .init type _ o => o.alloc < 0 ∨ 1 ≤ o.alloc ∧ o.alloc ≤ phVectorsMax d.type type
  | .free => True

instance (d : IrqDev) : (a : Act) → Decidable (d.AllocOk a)
  | .init _ _ _ => inferInstanceAs (Decidable (_ ∨ _ ∧ _))
  | .free => .isTrue trivial

/-- A device that has no interrupts yet. -/
def Init (d : IrqDev) : Prop :=
  d.vecNum = 0 ∧ (∀ i, d.irqAllocated i = false) ∧ d.log = []

/-- The device of a probe, cleared by `devm_kzalloc`. -/
def zeroed (type : MtEmuType) : IrqDev :=
  ⟨type, 0, 0, 0, 0, fun _ => false, fun _ => 0, [], []⟩

/-! ## the invariant -/

/-- The log is in order, and `irq_allocated`, which has 32 entries, and `vec_num` say what
is held. -/
structure Inv (d : IrqDev) : Prop where
  sound : Sound IrqRes.Needs (fun _ => false) d.log
  irqs : ∀ i, d.held (.irq i) = d.irqAllocated i
  vectors : d.held .vectors = decide (0 < d.vecNum)
  lt : ∀ i, d.irqAllocated i = true → i < d.vecNum
  le : d.vecNum ≤ 32

variable {d : IrqDev}

/-- An interrupt is needed by nothing. -/
theorem not_needs_irq {q : IrqRes} {i : Nat} : ¬q.Needs (.irq i) := nofun

theorem needs_iff {q r : IrqRes} : q.Needs r ↔ (∃ i, q = .irq i) ∧ r = .vectors := by
  constructor
  · rintro ⟨i⟩
    exact ⟨⟨i, rfl⟩, rfl⟩
  · rintro ⟨⟨i, rfl⟩, rfl⟩
    exact .irq i

@[simp] theorem held_note (d : IrqDev) (e : Event IrqRes) :
    (d.note e).held = Ledger.step d.held e := after_append _ d.log [e]

@[simp] theorem held_setIrq (d : IrqDev) (i : Nat) (b : Bool) : (d.setIrq i b).held = d.held := rfl

@[simp] theorem irqAllocated_setIrq (d : IrqDev) (i : Nat) (b : Bool) :
    (d.setIrq i b).irqAllocated = Function.update d.irqAllocated i b := rfl

/-- An event of an interrupt, with its entry of `irq_allocated`. -/
theorem Inv.setIrq (h : d.Inv) {e : Event IrqRes} {i : Nat} {b : Bool}
    (hstep : Ledger.step d.held e = Function.update d.held (.irq i) b)
    (he : Allowed IrqRes.Needs d.held e) (hlt : b = true → i < d.vecNum) :
    ((d.note e).setIrq i b).Inv where
  sound := h.sound.snoc he
  irqs j := by
    rw [held_setIrq, held_note, hstep]
    simp only [Function.update_apply, IrqRes.irq.injEq, h.irqs, IrqDev.setIrq, note]
  vectors := by
    rw [held_setIrq, held_note, hstep, Function.update_of_ne (by simp)]
    exact h.vectors
  lt j hj := by
    have hj' : Function.update d.irqAllocated i b j = true := hj
    rw [Function.update_apply] at hj'
    split at hj'
    · next hji => exact hji ▸ hlt hj'
    · exact h.lt j hj'
  le := h.le

/-! ## what `qy_free_irq` leaves -/

@[simp] theorem vecNum_freeIrq (d : IrqDev) (irq : Nat) : (d.freeIrq irq).vecNum = d.vecNum := by
  rw [freeIrq]
  split <;> rfl

@[simp] theorem type_freeIrq (d : IrqDev) (irq : Nat) : (d.freeIrq irq).type = d.type := by
  rw [freeIrq]
  split <;> rfl

theorem irqAllocated_freeIrq (d : IrqDev) (irq : Nat) :
    (d.freeIrq irq).irqAllocated = Function.update d.irqAllocated irq false := by
  rw [freeIrq]
  split
  · rfl
  · next h => exact (Function.update_eq_self_iff.mpr (by simpa using h)).symm

theorem Inv.freeIrq (h : d.Inv) (irq : Nat) : (d.freeIrq irq).Inv := by
  rw [IrqDev.freeIrq]
  split
  · next ha => exact h.setIrq rfl ⟨(h.irqs irq).trans ha, fun q hq => absurd hq not_needs_irq⟩ nofun
  · exact h

/-- What the loop of `qy_free_irq` keeps of the device. -/
theorem freeIrqs_fields (d : IrqDev) :
    d.freeIrqs.vecNum = d.vecNum ∧ d.freeIrqs.type = d.type := by
  refine Loop.each_spec (fun _ (s : IrqDev) => s.vecNum = d.vecNum ∧ s.type = d.type) ?_ ⟨rfl, rfl⟩
  rintro k s - ⟨hvec, htype⟩
  exact ⟨(s.vecNum_freeIrq k).trans hvec, (s.type_freeIrq k).trans htype⟩

/-- The loop of `qy_free_irq` gives back every interrupt. -/
theorem Inv.freeIrqs (h : d.Inv) :
    d.freeIrqs.Inv ∧ ∀ i, d.freeIrqs.irqAllocated i = false := by
  obtain ⟨hinv, hfree⟩ : d.freeIrqs.Inv ∧ ∀ i < d.vecNum, d.freeIrqs.irqAllocated i = false := by
    refine Loop.each_spec (fun k (s : IrqDev) =>
      s.Inv ∧ ∀ i < k, s.irqAllocated i = false) ?_ ⟨h, nofun⟩
    rintro k s - ⟨hinv, hfree⟩
    refine ⟨hinv.freeIrq k, fun i hi => ?_⟩
    rw [irqAllocated_freeIrq, Function.update_apply]
    split
    · rfl
    · exact hfree i (by omega)
  refine ⟨hinv, fun i => ?_⟩
  by_cases hi : i < d.vecNum
  · exact hfree i hi
  · exact Bool.eq_false_iff.mpr fun ht => hi (d.freeIrqs_fields.1 ▸ hinv.lt i ht)

/-- Without interrupts the vectors can go. -/
theorem Inv.freeVectors (h : d.Inv) (hfree : ∀ i, d.irqAllocated i = false) :
    IrqDev.Inv { d.freeVectors with vecNum := 0, irqType := 0 } := by
  have hlt : ∀ i, d.irqAllocated i = true → i < 0 := fun i hi => by
    rw [hfree i] at hi
    contradiction
  by_cases hpos : d.vecNum > 0
  · have hnote : d.freeVectors = d.note (.release .vectors) := if_pos hpos
    have hheld : d.freeVectors.held = Function.update d.held .vectors false := by
      rw [hnote, held_note]
      rfl
    refine ⟨?_, fun i => ?_, ?_, ?_, Nat.zero_le 32⟩
    · rw [hnote]
      refine h.sound.snoc ⟨h.vectors.trans (decide_eq_true hpos), fun q hq => ?_⟩
      obtain ⟨⟨i, rfl⟩, -⟩ := needs_iff.mp hq
      exact (h.irqs i).trans (hfree i)
    · have hi : d.freeVectors.held (.irq i) = d.irqAllocated i := by
        rw [hheld, Function.update_of_ne (by simp), h.irqs]
      rw [hnote] at hi ⊢
      exact hi
    · exact (congrFun hheld .vectors).trans (Function.update_self _ _ _)
    · rw [hnote]
      exact hlt
  · have hsame : d.freeVectors = d := if_neg hpos
    rw [hsame]
    exact ⟨h.sound, h.irqs, h.vectors.trans (decide_eq_false hpos), hlt, Nat.zero_le 32⟩

/-- After `qy_free_irq` nothing is held. -/
theorem Inv.qyFreeIrq (h : d.Inv) :
    d.qyFreeIrq.Inv ∧ ∀ i, d.qyFreeIrq.irqAllocated i = false := by
  obtain ⟨hinv, hfree⟩ := h.freeIrqs
  refine ⟨hinv.freeVectors hfree, fun i => ?_⟩
  have hsame : d.qyFreeIrq.irqAllocated = d.freeIrqs.irqAllocated := by
    rw [IrqDev.qyFreeIrq, IrqDev.freeVectors]
    split <;> rfl
  rw [hsame]
  exact hfree i

theorem type_qyFreeIrq (d : IrqDev) : d.qyFreeIrq.type = d.type := by
  rw [qyFreeIrq, freeVectors]
  split <;> exact d.freeIrqs_fields.2

/-! ## what `irq_init` leaves -/

/-- The vectors are allocated, and recorded in `vec_num`. -/
theorem Inv.setVectors (h : d.Inv) (hvec : d.vecNum = 0) (type testMode : Int) {o : IrqOutcome}
    (hpos : 1 ≤ o.alloc) (hle : o.alloc ≤ 32) :
    ((d.note (.acquire .vectors)).setVectors type testMode o).Inv where
  sound := by
    refine h.sound.snoc ⟨h.vectors.trans (by simp [hvec]), fun q hq => ?_⟩
    obtain ⟨⟨i, hi⟩, -⟩ := needs_iff.mp hq
    contradiction
  irqs i := by
    have hi : (d.note (.acquire .vectors)).held (.irq i) = d.irqAllocated i := by
      rw [held_note, Ledger.step, Function.update_of_ne (by simp), h.irqs]
    exact hi
  vectors := by
    have hheld : (d.note (.acquire .vectors)).held .vectors = true := by
      rw [held_note, Ledger.step, Function.update_self]
    exact hheld.trans (decide_eq_true (Int.lt_toNat.mpr hpos)).symm
  lt i hi := by
    have := h.lt i hi
    omega
  le := Int.toNat_le.mpr hle

theorem phVectorsMax_le (t : MtEmuType) (type : Int) : phVectorsMax t type ≤ 32 := by
  unfold phVectorsMax
  split
  · decide
  · cases t <;> decide

/-- The interrupts requested before an error are recorded. -/
theorem Inv.requestIrqs (h : d.Inv) (request : Nat → Int) {n i : Nat} (hn : i + n ≤ d.vecNum)
    (ha : ∀ j, i ≤ j → d.irqAllocated j = false) :
    (IrqDev.requestIrqs request n i d).1.Inv := by
  induction n generalizing i d with
  | zero => exact h
  | succ n ih =>
      have hlt : i < d.vecNum := by omega
      rw [IrqDev.requestIrqs]
      split
      · exact h
      · have hallowed : Allowed IrqRes.Needs d.held (.acquire (.irq i)) := by
          refine ⟨(h.irqs i).trans (ha i (Nat.le_refl i)), fun q hq => ?_⟩
          obtain ⟨-, rfl⟩ := needs_iff.mp hq
          exact h.vectors.trans (decide_eq_true (Nat.zero_lt_of_lt hlt))
        have hvec : i + 1 + n ≤ d.vecNum := by omega
        refine ih (h.setIrq rfl hallowed fun _ => hlt) hvec fun j hj => ?_
        have hne : j ≠ i := by omega
        exact (Function.update_of_ne hne true d.irqAllocated).trans (ha j (by omega))

/-- `irq_init` keeps the invariant. -/
theorem Inv.irqInit (h : d.Inv) (type testMode : Int) {o : IrqOutcome}
    (hok : d.AllocOk (.init type testMode o)) : (d.irqInit type testMode o).1.Inv := by
  obtain ⟨hinv, hfree⟩ := h.qyFreeIrq
  have hok' : d.qyFreeIrq.AllocOk (.init type testMode o) := by
    rw [AllocOk, type_qyFreeIrq]
    exact hok
  have hvec : d.qyFreeIrq.vecNum = 0 := rfl
  rw [IrqDev.irqInit]
  generalize d.qyFreeIrq = s at *
  dsimp only
  split
  · exact hinv
  split
  · exact hinv
  split
  · exact hinv
  rcases hok' with herr | ⟨hpos, hle⟩
  · have hnone : s.allocVectors o.alloc = s := if_pos (by omega)
    rw [hnone, if_pos (Or.inl (by omega))]
    exact hinv
  · have hsome : s.allocVectors o.alloc = s.note (.acquire .vectors) := if_neg (by omega)
    have hmax := phVectorsMax_le s.type type
    have hrec := (hinv.setVectors hvec type testMode hpos (by omega)).requestIrqs o.request
      (Nat.le_of_eq (Nat.zero_add o.alloc.toNat)) fun j _ => hfree j
    rw [hsome, if_neg (by omega)]
    split
    · exact hrec
    · exact ⟨hrec.sound, hrec.irqs, hrec.vectors, hrec.lt, hrec.le⟩

theorem init_zeroed (type : MtEmuType) : (zeroed type).Init := ⟨rfl, fun _ => rfl, rfl⟩

theorem inv_of_init (h : d.Init) : d.Inv := by
  obtain ⟨hvec, hirq, hlog⟩ := h
  have hheld : d.held = fun _ => false := by rw [held, hlog]; rfl
  refine ⟨hlog ▸ trivial, fun i => ?_, ?_, fun i hi => ?_, by omega⟩
  · rw [hheld, hirq]
  · rw [hheld, hvec]
    rfl
  · rw [hirq] at hi
    contradiction

/-- The invariant holds after any calls. -/
theorem inv_of_reaches (h : Reaches step AllocOk Init d) : d.Inv := by
  refine h.invariant (fun _ => inv_of_init) ?_
  intro s a s' ih hok hs
  cases a with
  | init type testMode o => exact Option.some.inj hs ▸ ih.irqInit type testMode hok
  | free => exact Option.some.inj hs ▸ ih.qyFreeIrq.1

/-- Each interrupt was freed as often as it was requested, but for one that is held. -/
theorem Inv.balance (h : d.Inv) (i : Nat) : acquired (.irq i) d.log =
    released (.irq i) d.log + (d.irqAllocated i).toNat := by
  have hbal := h.sound.balance (.irq i)
  rw [Bool.toNat_false, Nat.zero_add] at hbal
  rw [hbal, ← h.irqs i]
  rfl

/-- **Interrupt life cycle**: after any calls the log is in order, so that every interrupt
is freed once, before its vectors are released and before its vector is requested again;
`irq_allocated` has the interrupts held, all below `vec_num`, and vectors are held just
when that is not zero.  After `qy_free_irq` every interrupt ever requested was freed. -/
theorem irq_life_cycle (h : Reaches step AllocOk Init d) :
    Sound IrqRes.Needs (fun _ => false) d.log ∧
      (∀ i, d.held (.irq i) = d.irqAllocated i) ∧
      (∀ i, d.irqAllocated i = true → i < d.vecNum) ∧ d.vecNum ≤ 32 ∧
      (d.held .vectors = true ↔ 0 < d.vecNum) ∧
      (∀ i, acquired (.irq i) d.log = released (.irq i) d.log + (d.irqAllocated i).toNat) ∧
      ∀ i, acquired (.irq i) d.qyFreeIrq.log = released (.irq i) d.qyFreeIrq.log := by
  have hinv := inv_of_reaches h
  obtain ⟨hfreed, hnone⟩ := hinv.qyFreeIrq
  refine ⟨hinv.sound, hinv.irqs, hinv.lt, hinv.le, ?_, hinv.balance, fun i => ?_⟩
  · rw [hinv.vectors, decide_eq_true_iff]
  · have hbal := hfreed.balance i
    rwa [hnone i] at hbal

/-- Three vectors, of which the last cannot be requested, and then one for legacy interrupts. -/
def retry : List Act :=
  [.init 2 0 ⟨3, 40, fun i => if i = 2 then -16 else 0⟩, .init 1 0 ⟨1, 50, fun _ => 0⟩]

theorem retry_reaches : ∃ d, Reaches step AllocOk Init d ∧ d.vecNum = 1 ∧
    acquired (.irq 1) d.log = 1 :=
  exists_reaches retry (init_zeroed .gpu) (by decide)

/-- The two interrupts of the first call are freed by the second. -/
theorem irq_life_cycle_retry : ∃ d, Reaches step AllocOk Init d ∧
    d.vecNum = 1 ∧ released (.irq 1) d.log = 1 := by
  obtain ⟨d, hd, hvec, hacq⟩ := retry_reaches
  obtain ⟨-, -, hlt, -, -, hbal, -⟩ := irq_life_cycle hd
  have hfree : d.irqAllocated 1 = false := Bool.eq_false_iff.mpr fun h => by
    have := hlt 1 h
    omega
  have hrel := hbal 1
  rw [hfree, Bool.toNat_false, Nat.add_zero] at hrel
  exact ⟨d, hd, hvec, hrel ▸ hacq⟩

/-! ## step by step

`irq_init` holds no lock but `io_mutex`, so that interrupts and other commands come between its
steps. -/

/-- A step of `irq_init`. -/
inductive IrqOp where
  | freeIrq (i : Nat)
  | freeVectors
  | alloc (n : Int)
  | set (type testMode : Int) (o : IrqOutcome)
  | request (i : Nat)
  | reinit (i : Nat)

/-- What a step does. -/
def perform (d : IrqDev) : IrqOp → IrqDev
  | .freeIrq i => d.freeIrq i
  | .freeVectors => { d.freeVectors with vecNum := 0, irqType := 0 }
  | .alloc n => d.allocVectors n
  | .set type testMode o => d.setVectors type testMode o
  | .request i => (d.note (.acquire (.irq i))).setIrq i true
  | .reinit i => { d with intDone := Function.update d.intDone i 0 }

/-- The steps of `qy_free_irq`. -/
def freeOps (d : IrqDev) : List IrqOp := (List.range d.vecNum).map .freeIrq ++ [.freeVectors]

/-- The steps of the loop of `request_irq`, up to the first one that fails. -/
def requestOps (request : Nat → Int) : Nat → Nat → List IrqOp
  | 0, _ => []
  | n + 1, i => if request i ≠ 0 then [] else .request i :: requestOps request n (i + 1)

/-- The steps of `irq_init`. -/
def irqOps (d : IrqDev) (type testMode : Int) (o : IrqOutcome) : List IrqOp :=
  d.freeOps ++
    if type = 0 then []
    else if type ≠ 1 ∧ type ≠ 2 ∧ type ≠ 4 then []
    else if d.type = .vgpu ∧ type = 1 then []
    else
      let max := phVectorsMax d.type type
      .alloc o.alloc ::
        if o.alloc < 1 ∨ o.alloc > max then []
        else
          .set type testMode o :: requestOps o.request o.alloc.toNat 0 ++
            if ∀ i < o.alloc.toNat, o.request i = 0 then (List.range max).map .reinit else []

theorem foldl_freeOps (d : IrqDev) : d.freeOps.foldl perform d = d.qyFreeIrq := by
  rw [freeOps, List.foldl_append, List.foldl_map]
  have hloop : (List.range d.vecNum).foldl (fun s i => s.perform (.freeIrq i)) d = d.freeIrqs :=
    (Loop.each_eq_foldl d.vecNum (fun i s => s.freeIrq i) d).symm
  rw [hloop]
  rfl

theorem foldl_requestOps (request : Nat → Int) (n i : Nat) (d : IrqDev) :
    (requestOps request n i).foldl perform d = (requestIrqs request n i d).1 := by
  induction n generalizing i d with
  | zero => rfl
  | succ n ih =>
      rw [requestOps, requestIrqs]
      split
      · rfl
      · exact ih (i + 1) _

/-- No error is returned just when all the interrupts are given. -/
theorem requestIrqs_eq_zero (request : Nat → Int) (n i : Nat) (d : IrqDev) :
    (requestIrqs request n i d).2 = 0 ↔ ∀ j < n, request (i + j) = 0 := by
  induction n generalizing i d with
  | zero => exact iff_of_true rfl nofun
  | succ n ih =>
      rw [requestIrqs]
      split
      · next herr => exact iff_of_false herr fun h => herr (h 0 (Nat.succ_pos n))
      · next hok =>
          rw [ih, Nat.forall_lt_succ_left]
          simp only [Nat.add_zero, not_not.mp hok, true_and]
          exact forall₂_congr fun j _ => by rw [Nat.add_assoc, Nat.add_comm 1]

theorem foldl_reinit (d : IrqDev) (max : Nat) :
    ((List.range max).map .reinit).foldl perform d = d.reinit max := by
  induction max with
  | zero => rfl
  | succ n ih =>
      rw [List.range_succ, List.map_append, List.foldl_append, ih]
      simp only [List.map_cons, List.map_nil, List.foldl_cons, List.foldl_nil, perform, reinit]
      congr 1
      funext i
      rw [Function.update_apply]
      split_ifs <;> grind

/-- The steps make up `irq_init`. -/
theorem foldl_irqOps (d : IrqDev) (type testMode : Int) (o : IrqOutcome) :
    (d.irqOps type testMode o).foldl perform d = (d.irqInit type testMode o).1 := by
  rw [irqOps, irqInit, List.foldl_append, foldl_freeOps, type_qyFreeIrq]
  generalize d.qyFreeIrq = s
  dsimp only
  split
  · rfl
  split
  · rfl
  split
  · rfl
  split
  · rfl
  · have hzero := requestIrqs_eq_zero o.request o.alloc.toNat 0
      ((s.allocVectors o.alloc).setVectors type testMode o)
    simp only [Nat.zero_add] at hzero
    simp only [List.foldl_cons, List.cons_append, List.foldl_append, perform, foldl_requestOps]
    by_cases hall : ∀ i < o.alloc.toNat, o.request i = 0
    · rw [if_pos hall, foldl_reinit, if_neg (not_not.mpr (hzero.mpr hall))]
    · rw [if_neg hall, if_pos (mt hzero.mp hall), List.foldl_nil]

/-- The completions are touched by `reinit_completion` alone. -/
theorem intDone_perform (d : IrqDev) {op : IrqOp} (h : ∀ i, op ≠ .reinit i) :
    (d.perform op).intDone = d.intDone := by
  cases op with
  | freeIrq i =>
      rw [perform, freeIrq]
      split <;> rfl
  | freeVectors =>
      rw [perform, freeVectors]
      split <;> rfl
  | alloc n =>
      rw [perform, allocVectors]
      split <;> rfl
  | set | request => rfl
  | reinit i => exact absurd rfl (h i)

/-- No step of `irq_init` completes one. -/
theorem intDone_perform_le (d : IrqDev) (op : IrqOp) (i : Nat) :
    (d.perform op).intDone i ≤ d.intDone i := by
  cases op with
  | reinit j =>
      simp only [perform, Function.update_apply]
      split
      · exact Nat.zero_le _
      · exact le_rfl
  | freeIrq | freeVectors | alloc | set | request =>
      rw [intDone_perform _ (by simp)]

/-! ## the calls extend the log -/

theorem log_freeIrq (d : IrqDev) (irq : Nat) : d.log <+: (d.freeIrq irq).log := by
  rw [freeIrq]
  split
  · exact List.prefix_append _ _
  · exact List.prefix_rfl

theorem log_qyFreeIrq (d : IrqDev) : d.log <+: d.qyFreeIrq.log := by
  have hloop : d.log <+: d.freeIrqs.log :=
    Loop.each_spec (fun _ (s : IrqDev) => d.log <+: s.log)
      (fun k s _ hs => hs.trans (s.log_freeIrq k)) List.prefix_rfl
  have hvec : d.freeIrqs.log <+: d.freeIrqs.freeVectors.log := by
    rw [freeVectors]
    split
    · exact List.prefix_append _ _
    · exact List.prefix_rfl
  exact hloop.trans hvec

theorem log_requestIrqs (request : Nat → Int) (n i : Nat) (d : IrqDev) :
    d.log <+: (requestIrqs request n i d).1.log := by
  induction n generalizing i d with
  | zero => exact List.prefix_rfl
  | succ n ih =>
      rw [requestIrqs]
      split
      · exact List.prefix_rfl
      · exact (List.prefix_append d.log [.acquire (.irq i)]).trans
          (ih (i + 1) ((d.note (.acquire (.irq i))).setIrq i true))

theorem log_irqInit (d : IrqDev) (type testMode : Int) (o : IrqOutcome) :
    d.log <+: (d.irqInit type testMode o).1.log := by
  have halloc : ∀ s : IrqDev, s.log <+: (s.allocVectors o.alloc).log := fun s => by
    rw [allocVectors]
    split
    · exact List.prefix_rfl
    · exact List.prefix_append _ _
  refine d.log_qyFreeIrq.trans ?_
  rw [irqInit]
  generalize d.qyFreeIrq = s
  dsimp only
  split
  · exact List.prefix_rfl
  split
  · exact List.prefix_rfl
  split
  · exact List.prefix_rfl
  split
  · exact halloc s
  · have hreq := (halloc s).trans (log_requestIrqs o.request o.alloc.toNat 0
      ((s.allocVectors o.alloc).setVectors type testMode o))
    split <;> exact hreq

/-! ## an `irq_init` that succeeds -/

theorem requestIrqs_eq_zero_iff (request : Nat → Int) (n i : Nat) (d : IrqDev) :
    (requestIrqs request n i d).2 = 0 ↔ ∀ j, i ≤ j → j < i + n → request j = 0 := by
  induction n generalizing i d with
  | zero => exact iff_of_true rfl fun j hj hj' => by omega
  | succ n ih =>
      rw [requestIrqs]
      split
      · next hi => exact ⟨fun h => absurd h hi, fun h => absurd (h i (Nat.le_refl i) (by omega)) hi⟩
      · next hi =>
          rw [ih]
          refine ⟨fun h j hj hj' => ?_, fun h j hj hj' => h j (by omega) (by omega)⟩
          by_cases hji : j = i
          · exact hji ▸ not_not.mp hi
          · exact h j (by omega) (by omega)

/-- When all requests succeed, every vector gets its interrupt. -/
theorem irqAllocated_requestIrqs {request : Nat → Int} {n i : Nat} {d : IrqDev}
    (h : (requestIrqs request n i d).2 = 0) {j : Nat}
    (hj : i ≤ j ∧ j < i + n ∨ d.irqAllocated j = true) :
    (requestIrqs request n i d).1.irqAllocated j = true := by
  induction n generalizing i d with
  | zero => exact hj.elim (fun hlt => by omega) id
  | succ n ih =>
      rw [requestIrqs] at h ⊢
      split at h
      · next hi => exact absurd h hi
      · next hi =>
          rw [if_neg hi]
          refine ih h ?_
          by_cases hji : j = i
          · subst hji
            exact .inr (by rw [irqAllocated_setIrq, Function.update_self])
          · refine hj.imp (fun hlt => by omega) fun ha => ?_
            exact (Function.update_of_ne hji true d.irqAllocated).trans ha

theorem vecNum_requestIrqs (request : Nat → Int) (n i : Nat) (d : IrqDev) :
    (requestIrqs request n i d).1.vecNum = d.vecNum := by
  induction n generalizing i d with
  | zero => rfl
  | succ n ih =>
      rw [requestIrqs]
      split
      · rfl
      · exact ih (i + 1) _

/-- `irq_init` for MSI or MSI-X succeeds when its calls do, and then holds the vectors and
their interrupts. -/
theorem irqInit_ok (d : IrqDev) {type : Int} (testMode : Int) {o : IrqOutcome}
    (htype : type = 2 ∨ type = 4) (hok : d.AllocOk (.init type testMode o)) :
    ((d.irqInit type testMode o).2 = 0 ↔ IrqOutcome.Ok o) ∧
      ((d.irqInit type testMode o).2 = 0 →
        0 < (d.irqInit type testMode o).1.vecNum ∧
          ∀ i < o.alloc.toNat, (d.irqInit type testMode o).1.irqAllocated i = true) := by
  have hok' : d.qyFreeIrq.AllocOk (.init type testMode o) := by
    rw [AllocOk, type_qyFreeIrq]
    exact hok
  rw [irqInit]
  generalize d.qyFreeIrq = s at *
  dsimp only
  rw [if_neg (by omega), if_neg (by omega), if_neg (fun h => by omega)]
  rcases hok' with herr | ⟨hpos, hle⟩
  · rw [if_pos (Or.inl (by omega))]
    have hbad : ¬o.alloc = 0 := by omega
    exact ⟨⟨fun h => absurd h hbad, fun h => absurd h.1 (by omega)⟩, fun h => absurd h hbad⟩
  · rw [if_neg (by omega)]
    generalize hs : (s.allocVectors o.alloc).setVectors type testMode o = t
    have hvec : t.vecNum = o.alloc.toNat := hs ▸ rfl
    have hret := requestIrqs_eq_zero_iff o.request o.alloc.toNat 0 t
    by_cases h0 : (requestIrqs o.request o.alloc.toNat 0 t).2 = 0
    · rw [if_neg (not_not.mpr h0)]
      refine ⟨iff_of_true rfl ⟨hpos, fun i hi => ?_⟩, fun _ => ⟨?_, fun i hi => ?_⟩⟩
      · exact hret.mp h0 i (Nat.zero_le i) (by omega)
      · have hsame : (requestIrqs o.request o.alloc.toNat 0 t).1.vecNum = o.alloc.toNat :=
          (vecNum_requestIrqs _ _ _ t).trans hvec
        show 0 < (requestIrqs o.request o.alloc.toNat 0 t).1.vecNum
        omega
      · exact irqAllocated_requestIrqs h0 (.inl ⟨Nat.zero_le i, by omega⟩)
    · rw [if_pos h0]
      refine ⟨⟨fun h => absurd h h0, fun h => absurd (hret.mpr fun j _ hj => ?_) h0⟩,
        fun h => absurd h h0⟩
      exact h.2 j (by omega)

end IrqDev

end MtEmu
