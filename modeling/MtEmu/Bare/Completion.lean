import MtEmu.Bare.Channel

/-!
# MtEmu.Bare.Completion

Which done interrupt ends which wait.

`dma_bare_xfer` empties the completion, programs the channel and waits.  The
mutex keeps other callers out, but neither the hardware nor the interrupt of
an earlier transfer: one that is still running, or whose interrupt is still
to come, when the completion is emptied completes the wrong wait.

`Inv` holds of every run in which `reinit_completion` meets none of these
(`FreshReinit`), and with it a call that returns success has had its own
done interrupt (`own_completion`).  Without it a late interrupt is taken for
the new transfer's (`stale_completion`).
-/

namespace MtEmu

open Machine

/-- A call between `mutex_lock` and `mutex_unlock`. -/
def CallPc.Locks : CallPc → Prop
  | .idle | .entered _ | .unlocked _ | .returned _ => False
  | _ => True

namespace BareSys

/-! ## transfers on their way -/

/-- The transfers whose done bit the interrupt in progress has read. -/
def dones (s : BareSys) : List Nat :=
  match s.isr with
  | some f => f.dones
  | none => []

/-- A transfer that runs, or whose done bit is up or being handled. -/
def Outstanding (s : BareSys) (d : Nat) : Prop := d ∈ s.running ∨ d ∈ s.doneBy ∨ d ∈ s.dones

/-- Nothing runs and no interrupt is pending or in progress. -/
def Quiet (s : BareSys) : Prop := s.running = [] ∧ s.doneBy = [] ∧ s.isr = none

instance (s : BareSys) : Decidable s.Quiet := inferInstanceAs (Decidable (_ ∧ _ ∧ _))

theorem Quiet.not_outstanding {s : BareSys} (h : s.Quiet) (d : Nat) : ¬ s.Outstanding d := by
  simp [Outstanding, dones, h.1, h.2.1, h.2.2]

/-- The completion is emptied on a quiet channel only. -/
def FreshReinit (s : BareSys) : BareAct → Prop
  | .reinit _ => s.Quiet
  | _ => True

instance (s : BareSys) (a : BareAct) : Decidable (s.FreshReinit a) := by
  unfold FreshReinit
  split <;> infer_instance

/-! ## the invariant -/

/-- What a call's position says about the channel. -/
def CallOk (s : BareSys) (c : Nat) : CallPc → Prop
  | .idle => True
  | .entered p => ∀ as, p = .run as → EndsWithEnable as
  | .locked p => (∀ as, p = .run as → EndsWithEnable as) ∧ s.owner = some c
  | .reinited p =>
      (∀ as, p = .run as → EndsWithEnable as) ∧ s.owner = some c ∧ s.Quiet ∧ s.ch.intDone = 0
  | .writing as => EndsWithEnable as ∧ s.owner = some c ∧ s.Quiet ∧ s.ch.intDone = 0
  | .faulted => s.owner = some c ∧ s.Quiet ∧ s.ch.intDone = 0
  | .waiting =>
      s.owner = some c ∧ (∀ d, s.Outstanding d → d = c) ∧ (s.ch.intDone ≠ 0 → c ∈ s.delivered)
  | .woken => s.owner = some c ∧ c ∈ s.delivered
  | .timedOut => s.owner = some c
  | .unlocked woken => woken = true → c ∈ s.delivered
  | .returned ret => ret = 1 ∨ ret = 2 → c ∈ s.delivered

/-- **The invariant** of runs that empty the completion on a quiet channel. -/
structure Inv (s : BareSys) : Prop where
  calls : ∀ c, s.CallOk c (s.pc c)
  raised : (∀ f, s.isr = some f → f.cleared = true) →
    s.ch.intrRaw &&& intrDone ≠ 0 → s.doneBy ≠ []
  read : ∀ f, s.isr = some f → f.dones ≠ [] ∧ f.val &&& intrDone ≠ 0

/-- A call inside the mutex owns it. -/
theorem CallOk.owner {s : BareSys} {c : Nat} {p : CallPc} (h : s.CallOk c p) (hp : p.Locks) :
    s.owner = some c := by
  cases p <;> simp_all [CallOk, CallPc.Locks]

/-- A call outside the mutex looks at what was delivered only. -/
theorem CallOk.outside {s s' : BareSys} {c : Nat} {p : CallPc} (h : s.CallOk c p) (hp : ¬ p.Locks)
    (hdel : s.delivered ⊆ s'.delivered) : s'.CallOk c p := by
  cases p with
  | unlocked woken => exact fun hw => hdel (h hw)
  | returned ret => exact fun hr => hdel (h hr)
  | _ => simp_all [CallOk, CallPc.Locks]

/-! ## steps of a call -/

/-- A step of call `c`, when no other call is inside the mutex. -/
theorem Inv.callStep {s s' : BareSys} {c : Nat} {p : CallPc} (h : s.Inv)
    (howner : ∀ d, s.owner = some d → d = c) (hpc : s'.pc = Function.update s.pc c p)
    (hdel : s'.delivered = s.delivered) (hc : s'.CallOk c p) (d : Nat) : s'.CallOk d (s'.pc d) := by
  rw [hpc]
  by_cases hd : d = c
  · subst hd
    simpa using hc
  · rw [Function.update_of_ne hd]
    apply (h.calls d).outside
    · exact fun hl => hd (howner d ((h.calls d).owner hl))
    · simp [hdel]

/-- A step that moves call `c` alone. -/
theorem Inv.setPc {s : BareSys} {c : Nat} {p : CallPc} (h : s.Inv) (hc : s.CallOk c p) :
    (s.setPc c p).Inv := by
  constructor
  · intro d
    by_cases hd : d = c
    · subst hd
      rw [setPc_pc, Function.update_self]
      exact hc
    · rw [setPc_pc, Function.update_of_ne hd]
      exact h.calls d
  · exact h.raised
  · exact h.read

/-- Call `c` makes a write: the next one comes, or it waits. -/
theorem Inv.write {s : BareSys} {c : Nat} {a : Access} {rest : List Access} (h : s.Inv)
    (hpc : s.pc c = .writing (a :: rest)) : (s.write c a rest).Inv := by
  have hc := h.calls c
  rw [hpc] at hc
  obtain ⟨hend, howner, hquiet, hdone⟩ := hc
  have hch : (writeCh s.ch a).intDone = 0 := by
    unfold writeCh
    split <;> exact hdone
  constructor
  · refine h.callStep (by simp [howner]) rfl rfl ?_
    rcases hend.cons with ⟨rfl, rfl⟩ | ⟨hrest, ha, hend'⟩
    · simp only [if_true]
      refine ⟨howner, ?_, fun hne => absurd hch hne⟩
      intro d hd
      simpa [Outstanding, dones, BareSys.write, BareSys.setPc, hquiet.1, hquiet.2.1, hquiet.2.2] using hd
    · simp only [if_neg hrest]
      refine ⟨hend', howner, ?_, hch⟩
      simpa [BareSys.write, Quiet, BareSys.setPc, ha] using hquiet
  · intro hf hraw
    apply h.raised hf
    rw [done_ne_zero_iff] at hraw ⊢
    simp only [BareSys.write, writeCh] at hraw
    split at hraw <;> simp_all
  · exact h.read

/-! ## steps of the hardware and of the interrupt -/

/-- They leave every call's claims true: no call programs the channel, and
one that waits only waits for its own transfer. -/
theorem Inv.otherStep {s s' : BareSys} (h : s.Inv) (hpc : s'.pc = s.pc) (howner : s'.owner = s.owner)
    (hbusy : ∃ d, s.Outstanding d) (hout : ∀ d, s'.Outstanding d → s.Outstanding d)
    (hdel : s.delivered ⊆ s'.delivered)
    (hdone : s'.ch.intDone = s.ch.intDone ∨ ∃ d, s.Outstanding d ∧ d ∈ s'.delivered) (c : Nat) :
    s'.CallOk c (s'.pc c) := by
  have hnq : ¬ s.Quiet := fun hq => hbusy.elim fun d hd => hq.not_outstanding d hd
  have hc := h.calls c
  rw [hpc]
  cases hp : s.pc c <;> rw [hp] at hc
  case reinited p => exact absurd hc.2.2.1 hnq
  case writing as => exact absurd hc.2.2.1 hnq
  case faulted => exact absurd hc.2.1 hnq
  case waiting =>
    obtain ⟨hown, hall, htold⟩ := hc
    refine ⟨howner ▸ hown, fun d hd => hall d (hout d hd), fun hne => ?_⟩
    rcases hdone with heq | ⟨d, hd, hmem⟩
    · exact hdel (htold (heq ▸ hne))
    · exact hall d hd ▸ hmem
  case woken => exact ⟨howner ▸ hc.1, hdel hc.2⟩
  case locked p => exact ⟨hc.1, howner ▸ hc.2⟩
  case timedOut => exact howner.trans hc
  case unlocked woken => exact fun hw => hdel (hc hw)
  case returned ret => exact fun hr => hdel (hc hr)
  case idle => trivial
  case entered p => exact hc

/-- A transfer ends. -/
theorem Inv.hwEnd {s : BareSys} {c : Nat} {bits : U32} (h : s.Inv) (hc : c ∈ s.running) :
    (s.hwEnd c bits).Inv := by
  have hout : ∀ d, (s.hwEnd c bits).Outstanding d → s.Outstanding d := by
    simp only [Outstanding, dones, BareSys.hwEnd]
    grind
  constructor
  · exact h.otherStep rfl rfl ⟨c, .inl hc⟩ hout (List.Subset.refl _) (.inl rfl)
  · intro hf hraw
    rw [done_ne_zero_iff] at hraw
    simp only [BareSys.hwEnd, BitVec.getElem_or, Bool.or_eq_true] at hraw ⊢
    split
    · simp
    · next hbit =>
        rw [done_ne_zero_iff] at hbit
        exact h.raised hf ((done_ne_zero_iff _).mpr (hraw.resolve_right hbit))
  · exact h.read

/-- The interrupt reads the status. -/
theorem Inv.isrRead {s : BareSys} (h : s.Inv) (hisr : s.isr = none)
    (hst : s.ch.intrStatus &&& 1 = 1) : s.isrRead.Inv := by
  have hbit := s.ch.done_of_status hst
  have hne : s.doneBy ≠ [] := h.raised (by simp [hisr]) hbit
  obtain ⟨d, hd⟩ := List.exists_mem_of_ne_nil _ hne
  have hout : ∀ d, s.isrRead.Outstanding d → s.Outstanding d := by
    simp [Outstanding, dones, BareSys.isrRead, hisr]
  constructor
  · exact h.otherStep rfl rfl ⟨d, .inr (.inl hd)⟩ hout (List.Subset.refl _) (.inl rfl)
  · intro hf
    simp [BareSys.isrRead] at hf
  · intro f hf
    obtain rfl := Option.some.inj hf
    exact ⟨hne, hbit⟩

/-- The transfers whose done bit an interrupt in progress has read. -/
theorem Inv.exists_dones {s : BareSys} {f : IsrFrame} (h : s.Inv) (hisr : s.isr = some f) :
    ∃ d ∈ f.dones, s.Outstanding d := by
  obtain ⟨d, hd⟩ := List.exists_mem_of_ne_nil _ (h.read f hisr).1
  exact ⟨d, hd, .inr (.inr (by simpa [dones, hisr] using hd))⟩

/-- The interrupt clears what it read. -/
theorem Inv.isrClear {s : BareSys} {f : IsrFrame} (h : s.Inv) (hisr : s.isr = some f) :
    (s.isrClear f).Inv := by
  obtain ⟨d, _, hd⟩ := h.exists_dones hisr
  have hout : ∀ d, (s.isrClear f).Outstanding d → s.Outstanding d := by
    simp only [Outstanding, dones, BareSys.isrClear, hisr]
    grind
  constructor
  · exact h.otherStep rfl rfl ⟨d, hd⟩ hout (List.Subset.refl _) (.inl rfl)
  · intro _ hraw
    have hbit := (done_ne_zero_iff _).mp (h.read f hisr).2
    rw [done_ne_zero_iff] at hraw
    simp [BareSys.isrClear, hbit] at hraw
  · intro g hg
    obtain rfl := Option.some.inj hg
    exact h.read f hisr

/-- The interrupt completes the wait. -/
theorem Inv.isrComplete {s : BareSys} {f : IsrFrame} (h : s.Inv) (hisr : s.isr = some f)
    (hc : f.cleared = true) : (s.isrComplete f).Inv := by
  obtain ⟨d, hd, hdout⟩ := h.exists_dones hisr
  have hout : ∀ d, (s.isrComplete f).Outstanding d → s.Outstanding d := by
    simp only [Outstanding, dones, BareSys.isrComplete]
    grind
  constructor
  · exact h.otherStep rfl rfl ⟨d, hdout⟩ hout (List.subset_append_right _ _)
      (.inr ⟨d, hdout, List.mem_append_left _ hd⟩)
  · intro _ hraw
    exact h.raised (by simp [hisr, hc]) hraw
  · intro g hg
    cases hg

/-! ## runs -/

theorem inv_init {s : BareSys} (h : s = init) : s.Inv := by
  subst h
  constructor <;> simp [init, CallOk]

/-- **Step**: the invariant is kept by every step that empties the completion
on a quiet channel only. -/
theorem Inv.move {mmu : Bool} {info : MtdmaChanInfo} {s s' : BareSys} {a : BareAct} (h : s.Inv)
    (hok : s.FreshReinit a) (hm : Move mmu info s a s') : s'.Inv := by
  cases hm with
  | rejected hpc => exact h.setPc (by simp [CallOk])
  | called hpc => exact h.setPc fun as => endsWithEnable_dmaBareXfer
  | @locked c p hpc hfree =>
      have hc := h.calls c
      rw [hpc] at hc
      constructor
      · exact h.callStep (by simp [hfree]) rfl rfl ⟨hc, rfl⟩
      · exact h.raised
      · exact h.read
  | @reinited c p hpc =>
      have hc := h.calls c
      rw [hpc] at hc
      constructor
      · exact h.callStep (by simp [hc.2]) rfl rfl ⟨hc.1, hc.2, hok, rfl⟩
      · exact h.raised
      · exact h.read
  | @cleared c as hpc =>
      have hc := h.calls c
      rw [hpc] at hc
      constructor
      · exact h.callStep (by simp [hc.2.1]) rfl rfl ⟨hc.1 as rfl, hc.2⟩
      · exact h.raised
      · exact h.read
  | @faulted c p hpc =>
      have hc := h.calls c
      rw [hpc] at hc
      constructor
      · exact h.callStep (by simp [hc.2.1]) rfl rfl hc.2
      · exact h.raised
      · exact h.read
  | wrote hpc => exact h.write hpc
  | @woke c hpc hdone =>
      have hc := h.calls c
      rw [hpc] at hc
      constructor
      · exact h.callStep (by simp [hc.1]) rfl rfl ⟨hc.1, hc.2.2 hdone⟩
      · exact h.raised
      · exact h.read
  | @timedOut c hpc _ =>
      have hc := h.calls c
      rw [hpc] at hc
      exact h.setPc hc.1
  | @unlocked c hpc =>
      have hc := h.calls c
      rw [hpc] at hc
      constructor
      · exact h.callStep (by simp [hc.1]) rfl rfl fun _ => hc.2
      · exact h.raised
      · exact h.read
  | @gaveUp c hpc =>
      have hc := h.calls c
      rw [hpc] at hc
      constructor
      · exact h.callStep (by simp [show s.owner = some c from hc]) rfl rfl (by simp [CallOk])
      · exact h.raised
      · exact h.read
  | @returned c hpc =>
      have hc := h.calls c
      rw [hpc] at hc
      exact h.setPc fun _ => hc rfl
  | returnedZero hpc => exact h.setPc (by simp [CallOk])
  | ended hc => exact h.hwEnd hc
  | isrReads hisr hst => exact h.isrRead hisr hst
  | isrClears hisr _ => exact h.isrClear hisr
  | isrCompletes hisr hc => exact h.isrComplete hisr hc

/-- **Run**: it holds in every state that such a run reaches. -/
theorem inv_of_reaches {mmu : Bool} {info : MtdmaChanInfo} {s : BareSys}
    (h : Reaches (step mmu info) FreshReinit (· = init) s) : s.Inv :=
  h.invariant (fun _ => inv_init) fun _ _ _ hinv hok hs => hinv.move hok (move_of_step hs)

/-- **Own completion**: when every call empties the completion on a quiet
channel, a call that returns success has had its own done interrupt. -/
theorem own_completion {mmu : Bool} {info : MtdmaChanInfo} {s : BareSys} {c : Nat}
    (h : Reaches (step mmu info) FreshReinit (· = init) s) (hret : s.pc c = .returned 1) :
    c ∈ s.delivered := by
  have hc := (inv_of_reaches h).calls c
  rw [hret] at hc
  exact hc (.inl rfl)

/-- Call `c` copies 64 bytes to the device in single mode and gets as far as
the wait. -/
def startCall (c : Nat) : List BareAct :=
  [.call c ⟨1, 0, 0, 0, 0x1000, 0x2000, 64⟩ default default, .lock c, .reinit c, .clearError c] ++
    List.replicate 9 (.write c)

/-- The done interrupt of transfer `c`. -/
def doneInterrupt (c : Nat) : List BareAct := [.hwEnd c intrDone, .isrRead, .isrClear, .isrComplete]

theorem own_completion_twoCalls :
    ∃ s, Reaches (step false default) FreshReinit (· = init) s ∧
      s.pc 1 = .returned 1 ∧ 1 ∈ s.delivered := by
  -- the first call times out, but its interrupt comes before the second call
  obtain ⟨s, hr, hret⟩ : ∃ s, Reaches (step false default) FreshReinit (· = init) s ∧
      s.pc 1 = .returned 1 :=
    exists_reaches (startCall 0 ++ [.timeout 0, .unlock 0, .ret 0] ++ doneInterrupt 0 ++
      startCall 1 ++ doneInterrupt 1 ++ [.wake 1, .unlock 1, .ret 1]) rfl (by decide)
  exact ⟨s, hr, hret, own_completion hr hret⟩

/-- **A late interrupt ends the wrong wait**: the first call times out, its
transfer ends while the second call waits, and the second call returns
success with its own transfer still running. -/
theorem stale_completion :
    ∃ s, Reaches (step false default) anyStep (· = init) s ∧
      s.pc 1 = .returned 1 ∧ 1 ∉ s.delivered ∧ 1 ∈ s.running :=
  exists_reaches (startCall 0 ++ [.timeout 0, .unlock 0, .ret 0] ++ startCall 1 ++ doneInterrupt 0 ++
    [.wake 1, .unlock 1, .ret 1]) rfl (by decide)

end BareSys

end MtEmu
