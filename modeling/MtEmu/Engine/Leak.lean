import MtEmu.Engine.Scatter

/-!
# MtEmu.Engine.Leak

Every object of a descriptor is freed once: on the error path of `mtdma_device_transfer`,
and by `mtdma_start_transfer` and `vchan_free_desc` between them
(`mt-emu-mtdma-core.c`).
-/

namespace MtEmu

namespace KMem

variable {m : KMem} {others : Nat → Bool}

/-- A descriptor that lies complete in memory. -/
structure Built (m : KMem) (v : DescView) (d : MtdmaDesc) : Prop where
  good : m.Good
  desc : DescAt m.mem v d
  nodup : v.ids.Nodup
  held : ∀ a ∈ v.ids, m.held a = true

/-- From `m` to `m'`, what was allocated in between and `ids` were freed once each, and
nothing else that is held was freed or changed. -/
structure FreedOnce (m m' : KMem) (ids : List Nat) : Prop where
  allocated : ∀ a, Ledger.acquired a m'.log =
    Ledger.acquired a m.log + if m.fresh ≤ a ∧ a < m'.fresh then 1 else 0
  freed : ∀ a, Ledger.released a m'.log = Ledger.released a m.log + (decide (a ∈ ids)).toNat +
    if m.fresh ≤ a ∧ a < m'.fresh then 1 else 0
  sound : Ledger.Sound (fun _ _ => False) (fun _ => false) m'.log
  frame : ∀ a, m.held a = true → a ∉ ids → m'.held a = true ∧ m'.mem a = m.mem a

/-- What `n` starts leave of a descriptor in `m'`: the first `n` chunks and their bursts were
freed once each, and the rest lies complete. -/
structure StartedOnce (m : KMem) (v : DescView) (d : MtdmaDesc) (n : Nat) (m' : KMem) : Prop where
  rest : Built m' (DescView.started^[n] v) (MtdmaDesc.started^[n] d)
  freed : ∀ a ∈ (v.chunks.take n).flatMap ChunkView.ids,
    m'.held a = false ∧ Ledger.released a m'.log = Ledger.released a m.log + 1

theorem startedOnce_of_owns {m' : KMem} {v : DescView} {d : MtdmaDesc} {n : Nat}
    (h : m.Owns others m v.ids) (h' : m.Owns others m' (DescView.started^[n] v).ids)
    (hd : DescAt m'.mem (DescView.started^[n] v) (MtdmaDesc.started^[n] d)) :
    StartedOnce m v d n m' where
  rest := ⟨h'.good, hd, h'.nodup, fun _ => h'.held_of_mem⟩
  freed a ha := by
    have hids : v.ids = v.ptr :: v.head ::
        ((v.chunks.take n).flatMap ChunkView.ids ++ (v.chunks.drop n).flatMap ChunkView.ids) := by
      rw [← List.flatMap_append, List.take_append_drop]
      rfl
    have hin : a ∈ v.ids := by
      rw [hids]
      exact List.mem_cons_of_mem _ (List.mem_cons_of_mem _ (List.mem_append_left _ ha))
    -- it is none of what is left
    have hgone : a ∉ (DescView.started^[n] v).ids := by
      have hnodup := hids ▸ h.nodup
      simp only [List.nodup_cons, List.mem_cons, List.mem_append, List.nodup_append] at hnodup
      rw [DescView.iterate_started, DescView.ids]
      simp only [List.mem_cons]
      rintro (rfl | rfl | hdrop)
      · exact hnodup.1 (.inr (.inl ha))
      · exact hnodup.2.1 (.inl ha)
      · exact hnodup.2.2.2.2 a ha a hdrop rfl
    have hreleased := h.released h' a
    have hlt := h.lt_fresh hin
    rw [decide_eq_false hgone, decide_eq_true hin, if_neg (by omega)] at hreleased
    refine ⟨?_, by simpa using hreleased⟩
    rw [h'.held a, h.apart a hin, decide_eq_false hgone, Bool.or_false]

theorem freedOnce_of_owns {m' : KMem} {ids : List Nat} (h : m.Owns others m ids)
    (h' : m.Owns others m' []) : FreedOnce m m' ids where
  allocated := h'.acquired
  freed a := by
    have hreleased := h.released h' a
    simpa using hreleased
  sound := h'.good.sound
  frame a ha hids := by
    have hothers : others a = true := by
      rw [h.held a] at ha
      simpa [hids] using ha
    exact ⟨by rw [h'.held a, hothers, Bool.true_or], h'.frame a hothers⟩

/-- **No leak and no double free**: `mtdma_device_transfer` returns NULL with the lists as
they were and everything freed once, or a complete descriptor; and of a complete
descriptor `n` starts hand over and free the first `n` chunks, and everything is freed once
when `vchan_free_desc` is called then. -/
theorem deviceTransfer_frees {m : KMem} (hm : m.Good) (ch : MtdmaChan) (vc : VirtDmaChan Unit)
    (sgl : List SgEntry) (len : U32) :
    (∃ r vc' m', m.mtdmaDeviceTransfer ch vc sgl len = some (r, vc', m') ∧
      (r = none → vc' = vc ∧ FreedOnce m m' []) ∧
      (∀ p, r = some p → ∃ v d, v.ptr = p ∧ Built m' v d) ∧
      (m.AllOk → ch.configured = true → 1 ≤ len → r ≠ none)) ∧
    ∀ (v : DescView) (d : MtdmaDesc), Built m v d → vc.vchanNextDesc.map (·.id) = some v.ptr →
      ∀ n, ∃ m₁ m₂, starts vc n m = some (m₁, d.chunks.take n) ∧ StartedOnce m v d n m₁ ∧
        m₁.vchanFreeDesc v.ptr = some m₂ ∧ FreedOnce m m₂ v.ids := by
  constructor
  · have howns := hm.owns List.nodup_nil nofun
    cases mtdmaDeviceTransfer_spec ch vc sgl len howns with
    | inl hfail =>
        obtain ⟨m', hcall, hlt, howns'⟩ := hfail
        exact ⟨none, vc, m', hcall, fun _ => ⟨rfl, freedOnce_of_owns howns howns'⟩, nofun,
          fun hok hconf hlen => absurd (hlt hok hconf) (BitVec.not_lt.mpr hlen)⟩
    | inr hdone =>
        obtain ⟨m', v, d, hcall, -, hdesc, howns'⟩ := hdone
        refine ⟨some v.ptr, _, m', hcall, nofun, fun p hp => ?_, fun _ _ _ => Option.some_ne_none _⟩
        exact ⟨v, d, Option.some.inj hp, howns'.good, hdesc, howns'.nodup, fun a => howns'.held_of_mem⟩
  · intro v d hbuilt hvc n
    have howns := hbuilt.good.owns hbuilt.nodup hbuilt.held
    obtain ⟨m₁, hstarts, hdesc, howns₁⟩ := starts_spec n hbuilt.desc howns hvc
    obtain ⟨m₂, hfree, howns₂⟩ := mtdmaFreeDesc_spec hdesc howns₁
    rw [DescView.iterate_started] at hfree
    exact ⟨m₁, m₂, hstarts, startedOnce_of_owns howns howns₁ hdesc, hfree,
      freedOnce_of_owns howns howns₂⟩

/-- The lists of a channel on which one descriptor is issued. -/
def oneIssued (p : Ptr) : VirtDmaChan Unit :=
  { (VirtDmaChan.vchanInit : VirtDmaChan Unit) with issued := [⟨p, 2, .noError, ()⟩] }

/-- The sixth allocation fails, the list head of the first chunk's bursts being the fourth;
and when none fails, the first of the two chunks is started. -/
theorem deviceTransfer_frees_fourEntries :
    (∃ m', (boot (· ≠ 5)).mtdmaDeviceTransfer twoSlotChan .vchanInit fourEntries 4 =
        some (none, .vchanInit, m') ∧ FreedOnce (boot (· ≠ 5)) m' []) ∧
    ∃ m v d m₁ m₂, Built m v d ∧ starts (oneIssued v.ptr) 1 m = some (m₁, d.chunks.take 1) ∧
      StartedOnce m v d 1 m₁ ∧ m₁.vchanFreeDesc v.ptr = some m₂ ∧ FreedOnce m m₂ v.ids := by
  constructor
  · obtain ⟨⟨r, vc', m', hcall, hnull, -, -⟩, -⟩ := deviceTransfer_frees (good_boot (· ≠ 5))
      twoSlotChan .vchanInit fourEntries 4
    have hfst := congrArg (Option.map fun x => x.1) hcall
    obtain rfl : none = r := Option.some.inj (Eq.trans rfl hfst)
    obtain ⟨rfl, hfreed⟩ := hnull rfl
    exact ⟨m', hcall, hfreed⟩
  · obtain ⟨⟨r, vc', m, hcall, -, hbuilt, hsome⟩, -⟩ := deviceTransfer_frees
      (good_boot fun _ => true) twoSlotChan .vchanInit fourEntries 4
    obtain ⟨p, rfl⟩ := Option.ne_none_iff_exists'.mp (hsome (fun _ => rfl) rfl (by decide))
    obtain ⟨v, d, rfl, hb⟩ := hbuilt p rfl
    obtain ⟨m₁, m₂, hstart, hfirst, hfree, honce⟩ :=
      (deviceTransfer_frees hb.good twoSlotChan (oneIssued v.ptr) fourEntries 4).2 v d hb rfl 1
    exact ⟨m, v, d, m₁, m₂, hb, hstart, hfirst, hfree, honce⟩

end KMem

end MtEmu
