import MtEmu.Engine.Hw

/-!
# MtEmu.Engine.Errors

What becomes of an error that the hardware raises.

`mtdma_isr` decodes the error bits and calls `mtdma_abort_interrupt`, which
completes the descriptor like a good one: its result stays `NOERROR`, and its
cookie is complete.  So an error is kept from being reported as success only
while its descriptor is not completed: `ErrorsKept` holds of the runs in
which no interrupt completes a descriptor with an error, no error comes for a
completed one and no submission takes the completed cookie (`Uncompleted`).
-/

namespace MtEmu

open Machine

namespace EngineSys

variable {s s' : EngineSys}

/-- No descriptor with an error is reported as successful: not by its
callback, and not by the status of a cookie it was submitted with. -/
structure ErrorsKept (s : EngineSys) : Prop where
  callback : ∀ e ∈ s.called, e.1 ∈ s.errs → e.2 ≠ .noError
  cookie : ∀ t ∈ s.cookies, t.1 ∈ s.errs → s.chan.vc.dmaCookieStatus t.2 ≠ .complete

/-- A done interrupt completes the first issued descriptor. -/
def Finishes (s : EngineSys) : Prop :=
  s.chan.request = .stop ∨
    s.chan.request = .none ∧ ∀ d ∈ s.chan.vc.issued.head?, d.body.chunks = []

instance : Decidable s.Finishes := inferInstanceAs (Decidable (_ ∨ _))

/-- The first issued descriptor has no error. -/
def HeadClean (s : EngineSys) : Prop := ∀ d ∈ s.chan.vc.issued.head?, d.id ∉ s.errs

instance : Decidable s.HeadClean := inferInstanceAs (Decidable (∀ _ ∈ _, _))

/-- No interrupt completes a descriptor with an error, errors come for
descriptors that are not completed, and there is a cookie to submit with. -/
def Uncompleted (s : EngineSys) : EngineAct → Prop
  | .isrDone =>
      ∀ f ∈ s.isr, f.doneOver = false → f.status &&& intrDone ≠ 0 → s.Finishes → s.HeadClean
  | .isrAbort => ∀ f ∈ s.isr, f.doneOver = true → f.status &&& abortBits ≠ 0 → s.HeadClean
  | .hwFinish id bits => bits &&& intrErr ≠ 0 → id ∈ s.chan.vc.issued.map (·.id)
  | .submit _ => s.chan.vc.CookieLeft
  | _ => True

instance (a : EngineAct) : Decidable (s.Uncompleted a) := by
  unfold Uncompleted
  split <;> infer_instance

/-! ## the invariant -/

/-- The descriptors that were completed. -/
def goneIds (s : EngineSys) : List Nat :=
  s.chan.vc.completed.map (·.id) ++ s.taken.map (·.id) ++ s.called.map (·.1)

/-- **The invariant**: the descriptors with an error are still issued, no
completed descriptor is live, and a cookie is that of its descriptor. -/
structure Honest (s : EngineSys) : Prop where
  distinct : s.chan.vc.Distinct s.nextId
  ordered : s.chan.vc.Ordered
  errs : ∀ id ∈ s.errs, id ∈ s.chan.vc.issued.map (·.id)
  gone : ∀ id ∈ s.goneIds, id ∉ s.chan.vc.liveIds ∧ id < s.nextId
  fresh : ∀ t ∈ s.cookies, t.1 < s.nextId ∧ t.1 ∉ s.chan.vc.allocated.map (·.id)
  cookies : ∀ t ∈ s.cookies, ∀ u ∈ s.chan.vc.tags, u.1 = t.1 → u.2 = t.2

theorem honest_of_init (h : Init s) : s.Honest := by
  obtain ⟨dir, info, rfl⟩ := h
  constructor
  · exact VirtDmaChan.distinct_vchanInit 0
  · exact VirtDmaChan.ordered_vchanInit
  all_goals simp [goneIds, MtdmaChan.setup, VirtDmaChan.vchanInit]

/-- An issued descriptor is live. -/
theorem mem_liveIds_of_issued {vc : VirtDmaChan MtdmaDesc} {id : Nat}
    (h : id ∈ vc.issued.map (·.id)) : id ∈ vc.liveIds := by
  simp only [VirtDmaChan.liveIds, VirtDmaChan.live, VirtDmaChan.queued, List.map_append,
    List.mem_append]
  exact .inl (.inl h)

/-- A completed descriptor has no error. -/
theorem Honest.not_err (h : s.Honest) {id : Nat} (hid : id ∈ s.goneIds) : id ∉ s.errs :=
  fun he => (h.gone id hid).1 (mem_liveIds_of_issued (h.errs id he))

theorem Honest.errorsKept (h : s.Honest) : s.ErrorsKept := by
  constructor
  · intro e he herr
    exact absurd herr (h.not_err (by simp only [goneIds, List.mem_append, List.mem_map]; grind))
  · intro t ht herr
    obtain ⟨d, hd, hid⟩ := List.mem_map.mp (h.errs _ herr)
    have htag : (d.id, d.cookie) ∈ s.chan.vc.tags :=
      List.mem_map_of_mem (List.mem_append_left _ hd)
    have hcookie : d.cookie = t.2 := h.cookies t ht _ htag hid
    have hstatus := h.ordered.dmaCookieStatus htag
    rw [hcookie] at hstatus
    simp [hstatus]

/-! ## steps -/

/-- A chunk is started. -/
theorem Honest.start {ch : MtdmaChan} {hd : Option Handed} (h : s.Honest) (hs : s.chan.Start ch hd) :
    ({ s with chan := ch }.give hd).Honest := by
  have hmain : Honest { s with chan := ch } := by
    constructor
    · exact h.distinct.of_perm (List.Perm.of_eq hs.liveIds)
    · exact hs.ordered h.ordered
    · simpa [hs.issuedIds] using h.errs
    · simpa [goneIds, hs.completed, hs.liveIds] using h.gone
    · simpa [hs.allocated] using h.fresh
    · simpa [hs.tags] using h.cookies
  cases hd with
  | none => exact hmain
  | some _ => exact { hmain with }

/-- The first issued descriptor, which has no error, is completed. -/
theorem Honest.retire (h : s.Honest) (hhead : s.HeadClean) :
    Honest { s with chan := { s.chan with vc := s.chan.vc.retire } } := by
  have hord := h.ordered.retire
  have hdist := h.distinct.of_sublist VirtDmaChan.liveIds_retire
  cases hi : s.chan.vc.issued with
  | nil =>
      have heq : s.chan.vc.retire = s.chan.vc := by simp [VirtDmaChan.retire, hi]
      rw [heq]
      exact { h with }
  | cons d rest =>
      have hclean : d.id ∉ s.errs := hhead d (by simp [hi])
      have hissued : s.chan.vc.retire.issued = rest := VirtDmaChan.issued_retire hi
      have hcompleted : s.chan.vc.retire.completed.map (·.id) =
          s.chan.vc.completed.map (·.id) ++ [d.id] := by
        simp [VirtDmaChan.retire, hi, VirtDmaChan.vchanCookieComplete]
      have hlive := VirtDmaChan.liveIds_of_issued hi
      have hnodup := h.distinct.nodup
      have hlt := h.distinct.lt
      have hgone := h.gone
      rw [hlive, List.nodup_cons] at hnodup
      rw [hlive] at hlt hgone
      constructor
      · exact hdist
      · exact hord
      · intro id hid
        have := h.errs id hid
        rw [hi, List.map_cons, List.mem_cons] at this
        rw [hissued]
        exact this.resolve_left fun heq => hclean (heq ▸ hid)
      · intro id hid
        simp only [goneIds, hcompleted, List.mem_append, List.mem_singleton] at hid
        by_cases hd : id = d.id
        · subst hd
          exact ⟨hnodup.1, hlt _ List.mem_cons_self⟩
        · have hmem : id ∈ s.goneIds := by
            simp only [goneIds, List.mem_append]
            tauto
          have hg := hgone id hmem
          exact ⟨fun hl => hg.1 (List.mem_cons_of_mem _ hl), hg.2⟩
      · simpa using h.fresh
      · intro t ht u hu
        have hmem : u ∈ s.chan.vc.tags := by
          rw [VirtDmaChan.tags_of_issued hi]
          exact List.mem_cons_of_mem _ hu
        exact h.cookies t ht u hmem

/-- A prepared descriptor is submitted, and its cookie returned. -/
theorem Honest.submit {id : Nat} {vc : VirtDmaChan MtdmaDesc} (h : s.Honest)
    (hleft : s.chan.vc.CookieLeft) (hs : s.chan.vc.vchanTxSubmit id = some vc) :
    Honest { s with chan := { s.chan with vc := vc }, cookies := (id, vc.cookie) :: s.cookies } := by
  have hord := h.ordered.vchanTxSubmit hleft hs
  have hperm := VirtDmaChan.liveIds_vchanTxSubmit hs
  have hdist := h.distinct.of_perm hperm
  have htags := VirtDmaChan.tags_vchanTxSubmit hs
  obtain ⟨l, d, r, heq, hid, rfl⟩ := VirtDmaChan.exists_of_vchanTxSubmit hs
  have hd : d ∈ s.chan.vc.allocated := by simp [heq]
  have hnq := h.distinct.not_queued hd
  have hnodup : (s.chan.vc.allocated.map (·.id)).Nodup := by
    have := h.distinct.nodup
    simp only [VirtDmaChan.liveIds, VirtDmaChan.live, List.map_append, List.nodup_append] at this
    exact this.2.1
  rw [heq] at hnodup
  simp only [List.map_append, List.map_cons, hid, List.nodup_append, List.nodup_cons] at hnodup
  constructor
  · exact hdist
  · exact hord
  · exact h.errs
  · intro id' hid'
    have hg := h.gone id' hid'
    exact ⟨fun hl => hg.1 (hperm.mem_iff.mp hl), hg.2⟩
  · intro t ht
    rcases List.mem_cons.mp ht with rfl | ht
    · refine ⟨h.distinct.lt _ ?_, ?_⟩
      · simp only [VirtDmaChan.liveIds, VirtDmaChan.live, List.map_append, List.mem_append]
        exact .inr (hid ▸ List.mem_map_of_mem hd)
      · grind
    · have hf := h.fresh t ht
      rw [heq] at hf
      grind
  · intro t ht u hu heq'
    rw [htags] at hu
    rcases List.mem_cons.mp ht with rfl | ht
    · rcases List.mem_append.mp hu with hu | hu
      · obtain ⟨e, he, rfl⟩ := List.mem_map.mp hu
        have hed : e.id = d.id := heq'.trans hid.symm
        exact absurd (hed ▸ List.mem_map_of_mem he) hnq
      · obtain rfl := List.mem_singleton.mp hu
        rfl
    · rcases List.mem_append.mp hu with hu | hu
      · exact h.cookies t ht u hu heq'
      · obtain rfl := List.mem_singleton.mp hu
        have hf := (h.fresh t ht).2
        rw [← heq', ← hid] at hf
        exact absurd (List.mem_map_of_mem hd) hf

/-- `issue_pending` moves what was submitted, and starts a chunk. -/
theorem Honest.issue {ch : MtdmaChan} {hd : Option Handed} (h : s.Honest) (hi : s.chan.Issue ch hd) :
    ({ s with chan := ch }.give hd).Honest := by
  have hmove : Honest { s with chan := { s.chan with vc := s.chan.vc.vchanIssuePending.1 } } := by
    constructor
    · exact h.distinct.of_perm (List.Perm.of_eq VirtDmaChan.liveIds_vchanIssuePending)
    · exact h.ordered.of_eq rfl rfl VirtDmaChan.tags_vchanIssuePending
    · intro id hid
      simp [VirtDmaChan.vchanIssuePending]
      have := h.errs id hid
      simp at this
      grind
    · simpa [goneIds] using h.gone
    · simpa using h.fresh
    · simpa using h.cookies
  cases hi with
  | ignored => exact h
  | nothing => exact hmove
  | start _ _ hs =>
      exact Honest.start (s := { s with
        chan := { s.chan with vc := s.chan.vc.vchanIssuePending.1, status := .busy } })
        { hmove with } hs

/-- The done interrupt starts the next chunk, or completes a descriptor
without an error. -/
theorem Honest.done {ch : MtdmaChan} {hd : Option Handed} (h : s.Honest)
    (hok : s.Finishes → s.HeadClean) (hdone : s.chan.Done ch hd) :
    ({ s with chan := ch }.give hd).Honest := by
  cases hdone with
  | nothing => exact h
  | next _ _ _ hs =>
      exact Honest.start (s := { s with chan := { s.chan with status := .busy } }) { h with } hs
  | retires hi hreq => exact { h.retire (hok (by simpa [Finishes, hi] using hreq)) with }
  | pauses => exact { h with }

/-- **Step**: the invariant is kept. -/
theorem Honest.move {a : EngineAct} (h : s.Honest) (hok : s.Uncompleted a) (hm : Move s a s') :
    s'.Honest := by
  cases hm with
  | prep _ _ =>
      constructor
      · exact h.distinct.vchanTxPrep rfl
      · exact h.ordered.of_eq rfl rfl rfl
      · exact h.errs
      · intro id hmem
        have hg := h.gone id hmem
        refine ⟨?_, Nat.lt_succ_of_lt hg.2⟩
        simp only [VirtDmaChan.liveIds, VirtDmaChan.live, VirtDmaChan.vchanTxPrep] at hg ⊢
        grind [VirtDmaChan.queued]
      · intro t ht
        have hf := h.fresh t ht
        refine ⟨Nat.lt_succ_of_lt hf.1, ?_⟩
        simp only [VirtDmaChan.vchanTxPrep]
        grind
      · exact h.cookies
  | submit hs => exact h.submit hok hs
  | issue hi => exact h.issue hi
  | terminate ht => cases ht <;> exact { h with }
  | free ht => cases ht <;> exact { h with }
  | config => exact { h with }
  | @finished id bits _ =>
      constructor
      · exact h.distinct
      · exact h.ordered
      · intro id' hid'
        simp only [EngineSys.hwFinish] at hid'
        split at hid'
        · next hbits =>
            rcases List.mem_cons.mp hid' with rfl | hid'
            · exact hok hbits
            · exact h.errs id' hid'
        · exact h.errs id' hid'
      · exact h.gone
      · exact h.fresh
      · exact h.cookies
  | lost => exact { h with }
  | isrReads => exact { h with }
  | @isrDone status ch hd hisr hst hdone =>
      exact Honest.done (s := { s with isr := some ⟨status, true⟩ }) { h with }
        (hok _ hisr rfl hst) hdone
  | isrNotDone => exact { h with }
  | isrAbort hisr hst => exact { h.retire (hok _ hisr rfl hst) with }
  | isrNoAbort => exact { h with }
  | taskletTakes ht =>
      constructor
      · exact ⟨h.distinct.nodup, h.distinct.lt⟩
      · exact h.ordered.of_eq rfl rfl rfl
      · exact h.errs
      · exact fun id hid => h.gone id (by simpa [goneIds, ht] using hid)
      · exact h.fresh
      · exact h.cookies
  | taskletCalls ht =>
      constructor
      · exact h.distinct
      · exact h.ordered
      · exact h.errs
      · intro id hid
        apply h.gone id
        simp only [goneIds, ht, List.map_cons, List.mem_append, List.mem_cons] at hid ⊢
        tauto
      · exact h.fresh
      · exact h.cookies
  | _ => exact h

/-- **Run**: the invariant holds in every state that such a run reaches. -/
theorem honest_of_reaches (h : Reaches step Uncompleted Init s) : s.Honest :=
  h.invariant (fun _ => honest_of_init) fun _ _ _ hh hok hs => hh.move hok (move_of_step hs)

end EngineSys

end MtEmu
