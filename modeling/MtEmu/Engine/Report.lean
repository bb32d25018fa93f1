import MtEmu.Engine.DmaRw
import MtEmu.Engine.Errors

/-!
# MtEmu.Engine.Report

What `emu_dma_rw` makes of an error.

It counts an iteration as successful when its completion is completed within
the time, whoever did it: the callback has no result, and one that comes late
completes the wait of a later iteration.  `errors_kept` puts this together
with the descriptors' own reports (`MtEmu.Engine.Errors`): an error is kept
from being taken for success in the runs in which no descriptor with an error
is completed and no callback ends the wait of another iteration
(`OwnCallback`).  One data error is enough otherwise (`error_reported_ok`).
-/

namespace MtEmu

open Machine

namespace RwSys

variable {r r' : RwSys}

/-- Between `reinit_completion` and the end of the wait, a callback that
completes the call's completion is that of the iteration's descriptor. -/
def OwnCallback (r : RwSys) : Prop :=
  r.pc.InWindow → ∀ d ∈ r.eng.taken.head?, r.cb d.id = r.req.done → r.cur = some d.id

instance : Decidable r.OwnCallback := inferInstanceAs (Decidable (_ → ∀ _ ∈ _, _ → _))

/-- The condition `EngineSys.Uncompleted` on the channel, and `OwnCallback`
when a callback is run. -/
def ErrorsStay (r : RwSys) : RwAct → Prop
  | .txSubmit => r.eng.chan.vc.CookieLeft
  | .hw .taskletCall => r.OwnCallback
  | .hw a => r.eng.Uncompleted a
  | _ => True

instance (a : RwAct) : Decidable (r.ErrorsStay a) := by
  unfold ErrorsStay
  split <;> infer_instance

/-- The channel of such a run is one of `EngineSys`. -/
theorem eng_reaches (h : Reaches step ErrorsStay Init r) :
    Reaches EngineSys.step EngineSys.Uncompleted EngineSys.Init r.eng := by
  refine h.project RwSys.eng ?_ ?_
  · rintro _ ⟨eng, heng, rfl⟩
    exact heng
  · intro r a r' hok hs
    cases move_of_step hs with
    | outside _ _ _ _ heng => exact .inl heng
    | reinit => exact .inl rfl
    | config _ he => exact .inr ⟨.config _, trivial, he⟩
    | prepFails _ he => exact .inr ⟨.prep _ _ _, trivial, he⟩
    | prep _ he => exact .inr ⟨.prep _ _ _, trivial, he⟩
    | submitFails _ _ he => exact .inr ⟨.submit _, hok, he⟩
    | submit _ _ he => exact .inr ⟨.submit _, hok, he⟩
    | issue _ he => exact .inr ⟨.issuePending, trivial, he⟩
    | woke => exact .inl rfl
    | timedOut => exact .inl rfl
    | terminate _ he => exact .inr ⟨.terminateAll, trivial, he⟩
    | release _ he => exact .inr ⟨.freeChanResources _, trivial, he⟩
    | @hw a eng ha he =>
        refine .inr ⟨a, ?_, he⟩
        cases a with
        | taskletCall => trivial
        | _ => exact hok

/-! ## an iteration counts its own descriptor -/

/-- The descriptors whose callback was run. -/
def calledIds (r : RwSys) : List Nat := r.eng.called.map (·.1)

/-- **The invariant**: in the window a completion means that the iteration's
own callback was run, and it was for everything that was counted. -/
structure Counting (r : RwSys) : Prop where
  window : r.pc.InWindow → r.done r.req.done ≠ 0 → ∃ id ∈ r.cur, id ∈ r.calledIds
  fresh : r.pc = .reinited ∨ r.pc = .configured → r.cur = none
  counted : ∀ id ∈ r.counted, id ∈ r.calledIds

/-- A step of the channel never takes a callback back. -/
theorem called_of_step {s s' : EngineSys} {a : EngineAct} (h : s.step a = some s') :
    s'.called = s.called ∨
      ∃ d rest, a = .taskletCall ∧ s.taken = d :: rest ∧ s'.called = (d.id, d.result) :: s.called := by
  cases EngineSys.move_of_step h with
  | issue => exact .inl (by unfold EngineSys.give; split <;> rfl)
  | isrDone => exact .inl (by unfold EngineSys.give; split <;> rfl)
  | taskletCalls ht => exact .inr ⟨_, _, rfl, ht, rfl⟩
  | _ => exact .inl rfl

/-- A step of the client runs no callback. -/
theorem Counting.client {eng : EngineSys} {b : EngineAct} {p : RwPc} (h : r.Counting)
    (he : r.eng.step b = some eng) (hb : ¬ b.OfHardware) (hp : p.InWindow → r.pc.InWindow)
    (hfresh : p = .reinited ∨ p = .configured → r.cur = none) (ret : Int) (i : Nat) :
    Counting { r with eng := eng, pc := p, ret := ret, i := i } := by
  have hcalled : eng.called = r.eng.called := by
    rcases called_of_step he with heq | ⟨_, _, rfl, _⟩
    · exact heq
    · exact absurd trivial hb
  have hids : ∀ id, id ∈ r.calledIds →
      id ∈ calledIds { r with eng := eng, pc := p, ret := ret, i := i } := by
    simp [calledIds, hcalled]
  constructor
  · intro hw hne
    obtain ⟨id, hcur, hid⟩ := h.window (hp hw) hne
    exact ⟨id, hcur, hids id hid⟩
  · exact hfresh
  · exact fun id hid => hids id (h.counted id hid)

/-- The iteration has its descriptor. -/
theorem Counting.prep {eng : EngineSys} {cb : Nat → Bool × U32} {id : Nat} {own : List Nat}
    (h : r.Counting) (hpc : r.pc = .configured) (hcalled : eng.called = r.eng.called) :
    Counting { r with eng := eng, pc := .prepped, cb := cb, cur := some id, own := own } := by
  constructor
  · intro _ hne
    obtain ⟨id, hcur, _⟩ := h.window (by simp [hpc]) hne
    rw [h.fresh (.inr hpc)] at hcur
    cases hcur
  · simp
  · simpa [calledIds, hcalled] using h.counted

/-- The hardware, the interrupt or the tasklet takes a step. -/
theorem Counting.hw {eng : EngineSys} {b : EngineAct} (h : r.Counting) (hok : r.ErrorsStay (.hw b))
    (he : r.eng.step b = some eng) :
    Counting { r with eng := eng, done := r.doneAfter b } := by
  rcases called_of_step he with heq | ⟨d, rest, rfl, ht, heq⟩
  · have hdone : r.doneAfter b = r.done := by
      cases b with
      | taskletCall =>
          simp only [EngineSys.step] at he
          split at he
          · cases he
            simp at heq
          · contradiction
      | _ => rfl
    rw [hdone]
    constructor
    · simpa [calledIds, heq] using h.window
    · exact h.fresh
    · simpa [calledIds, heq] using h.counted
  · constructor
    · intro hw hne
      simp only [calledIds, heq, List.map_cons, List.mem_cons]
      by_cases hkey : r.cb d.id = r.req.done
      · exact ⟨d.id, hok hw d (by simp [ht]) hkey, .inl rfl⟩
      · simp only [doneAfter, ht, Function.update_of_ne (Ne.symm hkey)] at hne
        obtain ⟨id, hcur, hid⟩ := h.window hw hne
        exact ⟨id, hcur, .inr hid⟩
    · exact h.fresh
    · intro id hid
      simp only [calledIds, heq, List.map_cons]
      exact List.mem_cons_of_mem _ (h.counted id hid)

/-- **Step**: the invariant is kept. -/
theorem Counting.move {a : RwAct} (h : r.Counting) (hok : r.ErrorsStay a) (hm : Move r a r') :
    r'.Counting := by
  cases hm with
  | outside _ _ hpc' hp' heng hcounted =>
      rw [← hpc'] at hp'
      constructor
      · exact fun hw => absurd hw hp'.1
      · intro hw
        rcases hw with hw | hw <;> simp [hw] at hp'
      · simpa [calledIds, heng, hcounted] using h.counted
  | reinit =>
      constructor
      · simp
      · simp
      · exact h.counted
  | config hpc he =>
      exact h.client he (by simp [EngineAct.OfHardware]) (by simp [hpc])
        (fun _ => h.fresh (.inl hpc)) _ _
  | prepFails _ he =>
      exact h.client he (by simp [EngineAct.OfHardware]) (by simp) (by simp) _ _
  | prep hpc he =>
      refine h.prep hpc ?_
      rcases called_of_step he with heq | ⟨_, _, hact, _⟩
      · exact heq
      · cases hact
  | submitFails _ _ he => exact h.client he (by simp [EngineAct.OfHardware]) (by simp) (by simp) _ _
  | submit hpc _ he =>
      exact h.client he (by simp [EngineAct.OfHardware]) (by simp [hpc]) (by simp) _ _
  | issue hpc he => exact h.client he (by simp [EngineAct.OfHardware]) (by simp [hpc]) (by simp) _ _
  | woke hpc hdone =>
      constructor
      · simp
      · simp
      · intro id hid
        rcases List.mem_append.mp hid with hid | hid
        · obtain ⟨id', hcur, hmem⟩ := h.window (by simp [hpc]) hdone
          obtain rfl := Option.mem_unique (Option.mem_toList.mp hid) hcur
          exact hmem
        · exact h.counted id hid
  | timedOut =>
      constructor
      · simp
      · simp
      · exact h.counted
  | terminate _ he => exact h.client he (by simp [EngineAct.OfHardware]) (by simp) (by simp) _ _
  | release _ he => exact h.client he (by simp [EngineAct.OfHardware]) (by simp) (by simp) _ _
  | hw _ he => exact h.hw hok he

theorem counting_of_init (h : Init r) : r.Counting := by
  obtain ⟨eng, _, rfl⟩ := h
  constructor <;> simp

/-! ## errors are kept -/

/-- No iteration whose descriptor has an error is counted as successful. -/
def ErrorsNotCounted (r : RwSys) : Prop := ∀ id ∈ r.counted, id ∉ r.eng.errs

/-- **Run**: no error is taken for success, by a descriptor's callback, by the
status of its cookie or by `emu_dma_rw`, when no interrupt completes a
descriptor with an error and no callback ends another iteration's wait. -/
theorem errors_kept (s : EngineSys) (r : RwSys) :
    (Reaches EngineSys.step EngineSys.Uncompleted EngineSys.Init s → s.ErrorsKept) ∧
      (Reaches step ErrorsStay Init r → r.eng.ErrorsKept ∧ r.ErrorsNotCounted) := by
  refine ⟨fun h => (EngineSys.honest_of_reaches h).errorsKept, fun h => ?_⟩
  have hhonest := EngineSys.honest_of_reaches (eng_reaches h)
  have hcount : r.Counting := h.invariant (fun _ => counting_of_init)
    fun _ _ _ hc hok hs => hc.move hok (move_of_step hs)
  refine ⟨hhonest.errorsKept, fun id hid => hhonest.not_err ?_⟩
  exact List.mem_append_right _ (hcount.counted id hid)

theorem errors_kept_secondIteration :
    ∃ r, Reaches step ErrorsStay Init r ∧ r.counted = [0] ∧ r.eng.errs = [1] ∧
      r.eng.ErrorsKept ∧ r.ErrorsNotCounted := by
  -- the second transfer has an error, whose interrupt does not come in time
  obtain ⟨r, hr, hcounted, herrs⟩ : ∃ r, Reaches step ErrorsStay Init r ∧ r.counted = [0] ∧
      r.eng.errs = [1] :=
    exists_reaches (openCall 64 2 [0x8000] ++ startIteration ++ interrupt 0 intrDone ++ tasklet ++
      [.wake, .terminateAll] ++ startIteration ++ [.hw (.hwFinish 1 0b10), .timeout])
      init_smallChan (by decide)
  obtain ⟨hchan, hcall⟩ := errors_kept r.eng r
  exact ⟨r, hr, hcounted, herrs, hchan (eng_reaches hr), (hcall hr).2⟩

/-- **An error reported as success**: the hardware raises a data error; the
callback is run without an error, the cookie is complete and `emu_dma_rw`
counts the iteration. -/
theorem error_reported_ok :
    ∃ r, Reaches step anyStep Init r ∧ ¬ r.eng.ErrorsKept ∧ ¬ r.ErrorsNotCounted := by
  obtain ⟨r, hr, herr, hcalled, hcookie, hcounted⟩ : ∃ r, Reaches step anyStep Init r ∧
      0 ∈ r.eng.errs ∧ (0, .noError) ∈ r.eng.called ∧
      ((0, 2) ∈ r.eng.cookies ∧ r.eng.chan.vc.dmaCookieStatus 2 = .complete) ∧ 0 ∈ r.counted :=
    exists_reaches (openCall 64 1 [0x8000] ++ startIteration ++ interrupt 0 0b10 ++ tasklet ++ [.wake])
      init_smallChan (by decide)
  exact ⟨r, hr, fun h => h.callback _ hcalled herr rfl, fun h => h 0 hcounted herr⟩

end RwSys

end MtEmu
