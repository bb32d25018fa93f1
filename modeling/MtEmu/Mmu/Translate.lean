import MtEmu.Mmu.Pagetable

/-!
# MtEmu.Mmu.Translate

What a page walk finds in the tables `mmu_init_pagetable` writes.

The frames of the pools do not overlap and an entry address determines its
frame and index (`site_inj`), so every entry written is of one of four kinds
(`Written`): entries of a page directory all point to that directory's page
table, and entries of a page table all to the one data page with the same
pool index.  `Inv` carries this through `gen_page_desc` together with what
the records say.

The search for a page root entry looks for an address that is never
recorded.  Two pages behind one page root entry are therefore translated
through one page directory, to one data page (`walk_unique`), and the tables
translate as planned only where no context has a second page.
-/

namespace MtEmu

open Loop

/-! ## the walk -/

/-- An entry that is there and valid. -/
def readValid (mem : U64 → Option U64) (a : U64) : Option U64 :=
  (mem a).filter fun e => e &&& 0x1 == 1

/-- The page an entry of any level points to. -/
def entryBase (e : U64) : U64 := (e >>> 12) &&& 0xfffffffff

/-- `page_size_flag` of a page catalogue entry. -/
def entryFlag (e : U64) : U64 := (e >>> 9) &&& 0x7

/-- The page directory an entry of the page catalogue leads to: at once when
`page_size_flag` is set, else through the page root. -/
def walkRoot (mem : U64 → Option U64) (vaSize : Nat) (va pc : U64) : Option U64 :=
  if entryFlag pc = 0 then
    (readValid mem (entryAddr (entryBase pc) (prIndex vaSize va))).map entryBase
  else some (entryBase pc)

/-- A page walk for `va` from the page catalogue at page `root`. -/
def walk (mem : U64 → Option U64) (vaSize : Nat) (root va : U64) : Option U64 := do
  let pc ← readValid mem (entryAddr root (pcIndex va))
  let pdBase ← walkRoot mem vaSize va pc
  let pd ← readValid mem (entryAddr pdBase (pdIndex vaSize va))
  let pt ← readValid mem (entryAddr (entryBase pd) (ptIndex vaSize va))
  return entryBase pt

/-! ## frames and entry addresses -/

/-- The four levels of table. -/
inductive TableLevel where
  | pc
  | pr
  | pd
  | pt
  deriving DecidableEq

/-- The page of a table: the page catalogue of context `c`, or the table that
pool index `d` of context `c` brings with it. -/
def frame (c d : Nat) : TableLevel → Nat
  | .pc => 0x800000 + c
  | .pr => 0x802000 + c * 0x80000 + d * 4
  | .pd => 0x804000 + c * 0x80000 + (d * 4 + 1)
  | .pt => 0x806000 + c * 0x80000 + (d * 4 + 2)

/-- The address of entry `i` of a table. -/
def site (l : TableLevel) (c d : Nat) (i : U64) : U64 :=
  entryAddr (BitVec.ofNat 64 (frame c d l)) i

theorem frame_lt (l : TableLevel) (hc : c < 256) (hd : d < 256) : frame c d l < 0x10000000 := by
  cases l <;> simp only [frame] <;> omega

theorem entryAddr_eq (b i : U64) : entryAddr b i = (b <<< 12) + (i <<< 3) := BitVec.add_zero _

theorem toNat_site (l : TableLevel) (hc : c < 256) (hd : d < 256) {i : U64} (hi : i.toNat < 512) :
    (site l c d i).toNat = frame c d l * 4096 + i.toNat * 8 := by
  have hf := frame_lt l hc hd
  simp only [site, entryAddr_eq, BitVec.toNat_add, BitVec.toNat_shiftLeft, BitVec.toNat_ofNat,
    Nat.shiftLeft_eq]
  omega

/-- **An entry address determines its table and index.** -/
theorem site_inj {l l' : TableLevel} (hc : c < 256) (hd : d < 256) (hi : i.toNat < 512)
    (hc' : c' < 256) (hd' : d' < 256) (hi' : i'.toNat < 512)
    (h : site l c d i = site l' c' d' i') :
    l = l' ∧ c = c' ∧ (l = .pc ∨ d = d') ∧ i = i' := by
  have hn := congrArg BitVec.toNat h
  rw [toNat_site l hc hd hi, toNat_site l' hc' hd' hi'] at hn
  have hf : frame c d l = frame c' d' l' := by omega
  have hii : i = i' := BitVec.eq_of_toNat_eq (by omega)
  refine ⟨?_, ?_, ?_, hii⟩ <;> cases l <;> cases l' <;> simp [frame] at hf ⊢ <;> omega

/-- No table's entry has the address that marks an unused record. -/
theorem site_ne_unused (l : TableLevel) (hc : c < 256) (hd : d < 256) (hi : i.toNat < 512) :
    site l c d i ≠ unusedAddr := by
  intro h
  have hn := congrArg BitVec.toNat h
  rw [toNat_site l hc hd hi] at hn
  have hf := frame_lt l hc hd
  have hu : unusedAddr.toNat = 0x8000000000000000 := rfl
  omega

/-! ## indices -/

theorem toNat_and_lt {x : U64} (m : U64) (hm : m.toNat < 512) : (x &&& m).toNat < 512 := by
  rw [BitVec.toNat_and]
  exact Nat.lt_of_le_of_lt Nat.and_le_right hm

theorem pcIndex_lt (va : U64) : (pcIndex va).toNat < 512 := toNat_and_lt _ (by decide)

theorem prIndex_lt (n : Nat) (va : U64) : (prIndex n va).toNat < 512 := by
  unfold prIndex
  split <;> exact toNat_and_lt _ (by decide)

theorem pdIndex_lt (n : Nat) (va : U64) : (pdIndex n va).toNat < 512 := by
  unfold pdIndex
  split <;> exact toNat_and_lt _ (by decide)

theorem ptIndex_lt (n : Nat) (va : U64) : (ptIndex n va).toNat < 512 := by
  unfold ptIndex
  split <;> exact toNat_and_lt _ (by decide)

/-! ## the pools -/

theorem ctxtStride_eq (hc : c < 256) : ctxtStride c = BitVec.ofNat 64 (c * 0x80000) := by
  apply BitVec.eq_of_toNat_eq
  have hprod : (BitVec.ofNat 32 c * 0x80000).toNat = c * 0x80000 := by
    rw [BitVec.toNat_mul, BitVec.toNat_ofNat]
    show c % 2 ^ 32 * 0x80000 % 2 ^ 32 = c * 0x80000
    omega
  rw [ctxtStride, toNat_signExtend_of_lt (by omega), hprod, BitVec.toNat_ofNat]
  omega

theorem paPool_pr (ps : PageSize) (d : Nat) (hc : c < 256) :
    paPool ps c (d * 4) = BitVec.ofNat 64 (frame c d .pr) := by
  rw [paPool, if_pos (by omega), ctxtStride_eq hc, frame]
  simp only [BitVec.ofNat_add]
  rfl

theorem paPool_pd (ps : PageSize) (d : Nat) (hc : c < 256) :
    paPool ps c (d * 4 + 1) = BitVec.ofNat 64 (frame c d .pd) := by
  rw [paPool, if_neg (by omega), if_pos (by omega), ctxtStride_eq hc, frame]
  simp only [BitVec.ofNat_add]
  rfl

theorem paPool_pt (ps : PageSize) (d : Nat) (hc : c < 256) :
    paPool ps c (d * 4 + 2) = BitVec.ofNat 64 (frame c d .pt) := by
  rw [paPool, if_neg (by omega), if_neg (by omega), if_pos (by omega), ctxtStride_eq hc, frame]
  simp only [BitVec.ofNat_add]
  rfl

/-- The data page is the same in every context. -/
theorem paPool_page (ps : PageSize) (c d : Nat) : paPool ps c (d * 4 + 3) = paTempAddr ps d := by
  rw [paPool, if_neg (by omega), if_neg (by omega), if_neg (by omega)]
  congr 1
  omega

theorem toNat_paTempAddr (ps : PageSize) (hd : d < 256) :
    (paTempAddr ps d).toNat = 0x400000 + d * (poolStep ps.val.toNat).toNat := by
  have hstep : (poolStep ps.val.toNat).toNat ≤ 131072 := by cases ps <;> decide
  induction d with
  | zero => rw [Nat.zero_mul]; rfl
  | succ d ih =>
      have hmul : d * (poolStep ps.val.toNat).toNat ≤ 256 * 131072 :=
        Nat.mul_le_mul (by omega) hstep
      rw [paTempAddr, BitVec.toNat_add, ih (by omega), Nat.succ_mul]
      omega

/-- The first two pages of the pool differ. -/
theorem paTempAddr_zero_ne_one (ps : PageSize) : paTempAddr ps 0 ≠ paTempAddr ps 1 := by
  cases ps <;> decide

/-! ## entries -/

/-- The entries `gen_page_desc` sets up in context `c` with pool index `d`. -/
def pcEntry (ps : PageSize) (c d : Nat) : U64 :=
  (if ps.val.toNat ≥ 5 then pcDesc 1 1 (BitVec.ofNat 64 (frame c d .pd))
    else pcDesc 1 0 (BitVec.ofNat 64 (frame c d .pr))).context

@[inherit_doc pcEntry]
def prEntry (c d : Nat) : U64 := (prDesc 1 (BitVec.ofNat 64 (frame c d .pd))).context

@[inherit_doc pcEntry]
def pdEntry (ps : PageSize) (c d : Nat) : U64 :=
  (pdDesc 1 (ps.val.zeroExtend 64) (BitVec.ofNat 64 (frame c d .pt))).context

@[inherit_doc pcEntry]
def ptEntry (ps : PageSize) (d : Nat) : U64 :=
  (ptDesc 1 (paTempAddr ps d)).context (pdDesc 1 (ps.val.zeroExtend 64) 0)

/-- A descriptor word: twelve low bits and a page number above them. -/
def descWord (low base : U64) : U64 := low ||| ((base &&& 0xfffffffff) <<< 12)

theorem pcDesc_context (f base : U64) :
    (pcDesc 1 f base).context = descWord (1 ||| ((f &&& 0x7) <<< 9)) base := by
  simp [PcDesc.context, pcDesc, descWord]

theorem prDesc_context (base : U64) : (prDesc 1 base).context = descWord 1 base := by
  simp [PrDesc.context, prDesc, descWord]

theorem pdDesc_context (size base : U64) :
    (pdDesc 1 size base).context = descWord (1 ||| ((size &&& 0x7) <<< 9)) base := by
  simp [PdDesc.context, pdDesc, descWord]

theorem ptDesc_context (page size base : U64) :
    (ptDesc 1 page).context (pdDesc 1 size base) = descWord 1 page := by
  simp [PtDesc.context, ptDesc, pdDesc, descWord]

theorem toNat_descWord {low base : U64} (hlow : low.toNat < 4096) (hbase : base.toNat < 2 ^ 36) :
    (descWord low base).toNat = base.toNat * 4096 + low.toNat := by
  have hmask : (base &&& 0xfffffffff).toNat = base.toNat := by
    rw [BitVec.toNat_and]
    show base.toNat &&& (2 ^ 36 - 1) = base.toNat
    rw [Nat.and_two_pow_sub_one_eq_mod, Nat.mod_eq_of_lt hbase]
  have hshift : ((base &&& 0xfffffffff) <<< 12).toNat = base.toNat <<< 12 := by
    rw [BitVec.toNat_shiftLeft, hmask, Nat.mod_eq_of_lt]
    rw [Nat.shiftLeft_eq]
    omega
  rw [descWord, BitVec.toNat_or, hshift, Nat.or_comm, ← Nat.shiftLeft_add_eq_or_of_lt (by omega),
    Nat.shiftLeft_eq]

/-- A field of `k` bits at bit `n`. -/
theorem toNat_field (e : U64) (n k : Nat) (mask : U64) (hm : mask.toNat = 2 ^ k - 1) :
    ((e >>> n) &&& mask).toNat = e.toNat / 2 ^ n % 2 ^ k := by
  rw [BitVec.toNat_and, hm, Nat.and_two_pow_sub_one_eq_mod, BitVec.toNat_ushiftRight,
    Nat.shiftRight_eq_div_pow]

theorem entryBase_descWord {low base : U64} (hlow : low.toNat < 4096) (hbase : base.toNat < 2 ^ 36) :
    entryBase (descWord low base) = base := by
  apply BitVec.eq_of_toNat_eq
  rw [entryBase, toNat_field _ 12 36 _ rfl, toNat_descWord hlow hbase]
  omega

theorem entryFlag_descWord {low base : U64} (hlow : low.toNat < 4096) (hbase : base.toNat < 2 ^ 36) :
    (entryFlag (descWord low base)).toNat = low.toNat / 512 := by
  rw [entryFlag, toNat_field _ 9 3 _ rfl, toNat_descWord hlow hbase]
  omega

/-- A word whose lowest bit is set is a valid entry. -/
theorem valid_descWord {low base : U64} (hlow : low.toNat < 4096) (hbase : base.toNat < 2 ^ 36)
    (hodd : low.toNat % 2 = 1) : descWord low base &&& 0x1 = 1 := by
  apply BitVec.eq_of_toNat_eq
  have h := toNat_field (descWord low base) 0 1 0x1 rfl
  rw [BitVec.ushiftRight_zero] at h
  rw [h, toNat_descWord hlow hbase]
  show _ = 1
  omega

/-! ## what is written -/

/-- The entries that can be found, when pool indices below `n` are in use: a
page catalogue entry brings one of the context's tables into play, a page root
entry any of its page directories, and the two lower levels are fixed. -/
inductive Written (ps : PageSize) (n : Nat) : U64 → U64 → Prop where
  | pc : c < 256 → d < n → i.toNat < 512 → Written ps n (site .pc c 0 i) (pcEntry ps c d)
  | pr : c < 256 → d < n → d' < n → i.toNat < 512 → Written ps n (site .pr c d i) (prEntry c d')
  | pd : c < 256 → d < n → i.toNat < 512 → Written ps n (site .pd c d i) (pdEntry ps c d)
  | pt : c < 256 → d < n → i.toNat < 512 → Written ps n (site .pt c d i) (ptEntry ps d)

/-- The records of a level: each is unused, or holds the address of an entry
that has been written and the page that goes with it.  `src` gives the address
of an entry and `dst` the page, from context and pool index. -/
def Recorded (n : Nat) (src : Nat → Nat → U64 → U64) (dst : Nat → Nat → U64) (t : AssTable)
    (mem : U64 → Option U64) : Prop :=
  ∀ p, t.addr p = unusedAddr ∨ ∃ c d i, c < 256 ∧ d < n ∧ i.toNat < 512 ∧
    t.addr p = src c d i ∧ t.base p = dst c d ∧ mem (src c d i) ≠ none

/-- The page a page table entry is for. -/
def pageOf (ps : PageSize) (_ d : Nat) : U64 := paTempAddr ps d

/-- The page of a table, as the records hold it. -/
def frameOf (l : TableLevel) (c d : Nat) : U64 := BitVec.ofNat 64 (frame c d l)

/-- What holds of the records and the entries after any number of pages.  A
page root record holds the address of a page catalogue entry. -/
structure Inv (ps : PageSize) (n : Nat) (s : PageTables) : Prop where
  pc : Recorded n (fun c _ => site .pc c 0) (frameOf .pr) s.pc s.mem
  pr : ∀ p, s.pr.addr p = unusedAddr ∨ ∃ c i, c < 256 ∧ i.toNat < 512 ∧
    s.pr.addr p = site .pc c 0 i
  pd : Recorded n (site .pd) (frameOf .pt) s.pd s.mem
  pt : Recorded n (site .pt) (pageOf ps) s.pt s.mem
  mem : ∀ a e, s.mem a = some e → Written ps n a e

/-- A record found or taken: the two ways a search ends. -/
theorem enter_cases (t : AssTable) (c d : Nat) (key noted fresh : U64) :
    (∃ p, t.addr p = key ∧ t.enter c d key noted fresh = ⟨t.base p, true, t⟩) ∨
      t.enter c d key noted fresh =
        ⟨fresh, false, Function.update t.addr (c, d) noted, Function.update t.base (c, d) fresh⟩ := by
  unfold AssTable.enter
  split
  · next p hp => exact .inl ⟨p, by simpa using List.find?_some hp, rfl⟩
  · exact .inr rfl

/-- What holds of all records, and of the one noted. -/
theorem enter_forall {R : U64 → U64 → Prop} {t : AssTable} (h : ∀ p, R (t.addr p) (t.base p))
    {noted fresh : U64} (hnew : R noted fresh) (c d : Nat) (key : U64) (p : Nat × Nat) :
    R ((t.enter c d key noted fresh).table.addr p) ((t.enter c d key noted fresh).table.base p) := by
  rcases enter_cases t c d key noted fresh with ⟨p', -, he⟩ | he
  · rw [he]
    exact h p
  · rw [he]
    by_cases hp : p = (c, d)
    · simpa [hp] using hnew
    · simpa [Function.update_of_ne hp] using h p

variable {ps : PageSize} {n : Nat} {src : Nat → Nat → U64 → U64} {dst : Nat → Nat → U64}
  {t : AssTable} {mem mem' : U64 → Option U64}

/-- The base a search ends with is that of an entry with the address searched
for, and when it was found the entry has been written. -/
theorem Recorded.base (h : Recorded n src dst t mem) (hc : c < 256) (hd : d < n)
    (hi : i.toNat < 512) (hkey : src c d i ≠ unusedAddr) :
    ∃ c' d' i', c' < 256 ∧ d' < n ∧ i'.toNat < 512 ∧ src c' d' i' = src c d i ∧
      (t.enter c d (src c d i) (src c d i) (dst c d)).base = dst c' d' ∧
      ((t.enter c d (src c d i) (src c d i) (dst c d)).found = true → mem (src c d i) ≠ none) := by
  rcases enter_cases t c d (src c d i) (src c d i) (dst c d) with ⟨p, hp, he⟩ | he
  · rw [he]
    rcases h p with hu | ⟨c', d', i', hc', hd', hi', haddr, hbase, hmem⟩
    · exact absurd (hp.symm.trans hu) hkey
    · have hs : src c' d' i' = src c d i := haddr.symm.trans hp
      exact ⟨c', d', i', hc', hd', hi', hs, hbase, fun _ => hs ▸ hmem⟩
  · rw [he]
    exact ⟨c, d, i, hc, hd, hi, rfl, rfl, fun hf => absurd hf (by simp)⟩

/-- The records stay right when memory grows and has the entry searched for. -/
theorem Recorded.enter (h : Recorded n src dst t mem) (hgrow : ∀ a, mem a ≠ none → mem' a ≠ none)
    (hc : c < 256) (hd : d < n) (hi : i.toNat < 512) (hhere : mem' (src c d i) ≠ none) :
    Recorded n src dst (t.enter c d (src c d i) (src c d i) (dst c d)).table mem' := by
  have hold : Recorded n src dst t mem' := fun p => (h p).imp_right
    fun ⟨c', d', i', hc', hd', hi', ha, hb, hm⟩ =>
      ⟨c', d', i', hc', hd', hi', ha, hb, hgrow _ hm⟩
  rcases enter_cases t c d (src c d i) (src c d i) (dst c d) with ⟨p, hp, he⟩ | he
  · rw [he]
    exact hold
  · rw [he]
    intro p
    by_cases hp : p = (c, d)
    · refine .inr ⟨c, d, i, hc, hd, hi, ?_, ?_, hhere⟩ <;> simp [hp]
    · simpa [Function.update_of_ne hp] using hold p

/-! ## `storeIf` -/

theorem storeIf_grow (b : Bool) (x e : U64) (h : mem a ≠ none) : storeIf b x e mem a ≠ none := by
  unfold storeIf
  split
  · by_cases ha : a = x
    · simp [ha]
    · rwa [Function.update_of_ne ha]
  · exact h

theorem storeIf_here (b : Bool) (x e : U64) (h : b = false → mem x ≠ none) :
    storeIf b x e mem x ≠ none := by
  cases b with
  | false => exact h rfl
  | true => simp [storeIf]

/-- What holds of all entries, and of the one stored. -/
theorem storeIf_forall {P : U64 → U64 → Prop} (h : ∀ a e, mem a = some e → P a e) (b : Bool)
    (hx : b = true → P x v) : ∀ a e, storeIf b x v mem a = some e → P a e := by
  intro a e he
  unfold storeIf at he
  split at he
  · next hb =>
      by_cases ha : a = x
      · subst ha
        rw [Function.update_self, Option.some.injEq] at he
        exact he ▸ hx hb
      · exact h a e (by rwa [Function.update_of_ne ha] at he)
  · exact h a e he

/-! ## one page -/

/-- The entries a page's walk needs are there. -/
structure Mapped (ps : PageSize) (n : Nat) (mem : U64 → Option U64) (c d : Nat) (va : U64) :
    Prop where
  pc : mem (site .pc c 0 (pcIndex va)) ≠ none
  pr : ps.val.toNat < 5 → ∃ d' < n, mem (site .pr c d' (prIndex ps.val.toNat va)) ≠ none
  pd : mem (site .pd c d (pdIndex ps.val.toNat va)) ≠ none
  pt : mem (site .pt c d (ptIndex ps.val.toNat va)) ≠ none

theorem Mapped.grow (h : Mapped ps n mem c d va) (hgrow : ∀ a, mem a ≠ none → mem' a ≠ none) :
    Mapped ps n mem' c d va :=
  ⟨hgrow _ h.pc, fun hs => (h.pr hs).imp fun _ h => ⟨h.1, hgrow _ h.2⟩, hgrow _ h.pd, hgrow _ h.pt⟩

theorem pcBase_eq (c : BitVec 8) :
    (mmuPcBaseAddr >>> 12) + c.zeroExtend 64 = BitVec.ofNat 64 (frame c.toNat 0 .pc) := by
  rw [frame, BitVec.ofNat_add]
  congr 1
  exact BitVec.eq_of_toNat_eq (by simp)

/-- The page root search never succeeds: the records hold other addresses. -/
theorem Inv.pr_enter (h : Inv ps n s) (c d : Nat) (hc : c < 256) (hd : d < 256) (hi : i.toNat < 512)
    (c' d' : Nat) (noted fresh : U64) :
    s.pr.enter c' d' (site .pr c d i) noted fresh =
      ⟨fresh, false, Function.update s.pr.addr (c', d') noted,
        Function.update s.pr.base (c', d') fresh⟩ := by
  rcases enter_cases s.pr c' d' (site .pr c d i) noted fresh with ⟨p, hp, -⟩ | he
  · rcases h.pr p with hu | ⟨c'', i'', hc'', hi'', ha⟩
    · exact absurd (hp.symm.trans hu) (site_ne_unused _ hc hd hi)
    · have hl := (site_inj hc'' (by decide) hi'' hc hd hi (ha.symm.trans hp)).1
      cases hl
  · exact he

/-- `AssTable.enter` at an entry address that is itself what is noted. -/
abbrev enterAt (src : Nat → Nat → U64 → U64) (dst : Nat → Nat → U64) (t : AssTable) (c d : Nat)
    (i : U64) : Entered :=
  t.enter c d (src c d i) (src c d i) (dst c d)

/-- What `gen_page_desc` does with one page, the searches resolved: which of
the four entries are written is left to the flags. -/
theorem genPageDesc_eq (h : Inv ps n s) (hn : n ≤ 256) (c d : BitVec 8) (hd : d.toNat < n)
    (va : U64) : ∃ d₁ d₂, d₁ < n ∧ d₂ < n ∧
    genPageDesc (paPool ps) va c d ps.val 1 s =
      let c := c.toNat
      let d := d.toNat
      let size := ps.val.toNat
      let pr := enterAt (fun c _ => site .pc c 0) (frameOf .pr) s.pc c d (pcIndex va)
      let pt := enterAt (site .pd) (frameOf .pt) s.pd c d (pdIndex size va)
      let page := enterAt (site .pt) (pageOf ps) s.pt c d (ptIndex size va)
      { pc := pr.table
        pr := ⟨Function.update s.pr.addr (c, d) (site .pc c 0 (pcIndex va)),
          Function.update s.pr.base (c, d) (frameOf .pd c d)⟩
        pd := pt.table
        pt := page.table
        mem :=
          storeIf (!page.found) (site .pt c d (ptIndex size va)) (ptEntry ps d) <|
          storeIf (!pt.found) (site .pd c d (pdIndex size va)) (pdEntry ps c d) <|
          storeIf (size < 5) (site .pr c d₁ (prIndex size va)) (prEntry c d) <|
          storeIf (!pr.found) (site .pc c 0 (pcIndex va)) (pcEntry ps c d₂) s.mem } := by
  have hc : c.toNat < 256 := c.isLt
  have hd' : d.toNat < 256 := d.isLt
  -- the searches, one level after the other
  obtain ⟨c₁, d₁, i₁, hc₁, hd₁, hi₁, hs₁, hb₁, -⟩ :=
    h.pc.base hc hd (pcIndex_lt va) (site_ne_unused .pc hc (by decide) (pcIndex_lt va))
  obtain ⟨-, rfl, -, -⟩ := site_inj hc₁ (by decide) hi₁ hc (by decide) (pcIndex_lt va) hs₁
  have hpd := h.pr_enter c.toNat d₁ hc (by omega) (prIndex_lt ps.val.toNat va)
  obtain ⟨c₃, d₃, i₃, hc₃, hd₃, hi₃, hs₃, hb₃, -⟩ :=
    h.pd.base hc hd (pdIndex_lt ps.val.toNat va) (site_ne_unused .pd hc hd' (pdIndex_lt _ va))
  obtain ⟨-, rfl, h₃, -⟩ := site_inj hc₃ (by omega) hi₃ hc hd' (pdIndex_lt ps.val.toNat va) hs₃
  obtain rfl := h₃.resolve_left (by decide)
  obtain ⟨c₄, d₄, i₄, hc₄, hd₄, hi₄, hs₄, hb₄, -⟩ :=
    h.pt.base hc hd (ptIndex_lt ps.val.toNat va) (site_ne_unused .pt hc hd' (ptIndex_lt _ va))
  obtain ⟨-, rfl, h₄, -⟩ := site_inj hc₄ (by omega) hi₄ hc hd' (ptIndex_lt ps.val.toNat va) hs₄
  obtain rfl := h₄.resolve_left (by decide)
  have hvalid : BitVec.zeroExtend 64 (1 : BitVec 8) = 1 := rfl
  have hinv : ((1 : BitVec 8) == 0) = false := rfl
  refine ⟨d₁, if ps.val.toNat ≥ 5 then d.toNat else d₁, hd₁, by split <;> assumption, ?_⟩
  simp only [site, frameOf, pageOf, enterAt] at hb₁ hpd hb₃ hb₄ ⊢
  simp only [genPageDesc, pcBase_eq, paPool_pr ps _ hc, paPool_pd ps _ hc, paPool_pt ps _ hc,
    paPool_page, hb₁, hpd, hb₃, hb₄, hvalid, hinv, pcEntry, prEntry, pdEntry, ptEntry,
    ptDesc_context, Bool.or_false, Bool.not_false, Bool.and_true]
  split <;> rfl

/-- **One page**: the records and the kinds of entries are kept, nothing that
was written goes away, and the page's own entries are there. -/
theorem genPageDesc_spec (h : Inv ps n s) (hn : n ≤ 256) (c d : BitVec 8) (hd : d.toNat < n)
    (va : U64) :
    Inv ps n (genPageDesc (paPool ps) va c d ps.val 1 s) ∧
      (∀ a, s.mem a ≠ none → (genPageDesc (paPool ps) va c d ps.val 1 s).mem a ≠ none) ∧
      Mapped ps n (genPageDesc (paPool ps) va c d ps.val 1 s).mem c.toNat d.toNat va := by
  have hc : c.toNat < 256 := c.isLt
  have hd' : d.toNat < 256 := d.isLt
  obtain ⟨-, -, -, -, -, -, -, -, hf₂⟩ :=
    h.pc.base hc hd (pcIndex_lt va) (site_ne_unused .pc hc (by decide) (pcIndex_lt va))
  obtain ⟨-, -, -, -, -, -, -, -, hf₁⟩ :=
    h.pd.base hc hd (pdIndex_lt ps.val.toNat va) (site_ne_unused .pd hc hd' (pdIndex_lt _ va))
  obtain ⟨-, -, -, -, -, -, -, -, hf₀⟩ :=
    h.pt.base hc hd (ptIndex_lt ps.val.toNat va) (site_ne_unused .pt hc hd' (ptIndex_lt _ va))
  obtain ⟨d₁, d₂, hd₁, hd₂, he⟩ := genPageDesc_eq h hn c d hd va
  generalize genPageDesc (paPool ps) va c d ps.val 1 s = s' at he ⊢
  have hgrow : ∀ a, s.mem a ≠ none → s'.mem a ≠ none := by
    intro a ha
    rw [he]
    exact storeIf_grow _ _ _ (storeIf_grow _ _ _ (storeIf_grow _ _ _ (storeIf_grow _ _ _ ha)))
  have hmapped : Mapped ps n s'.mem c.toNat d.toNat va := by
    rw [he]
    refine ⟨?_, fun hs => ⟨d₁, hd₁, ?_⟩, ?_, ?_⟩
    · refine storeIf_grow _ _ _ (storeIf_grow _ _ _ (storeIf_grow _ _ _ (storeIf_here _ _ _ ?_)))
      simpa using hf₂
    · refine storeIf_grow _ _ _ (storeIf_grow _ _ _ (storeIf_here _ _ _ ?_))
      simp [hs]
    · refine storeIf_grow _ _ _ (storeIf_here _ _ _ fun hf => ?_)
      exact storeIf_grow _ _ _ (storeIf_grow _ _ _ (hf₁ (by simpa using hf)))
    · refine storeIf_here _ _ _ fun hf => ?_
      exact storeIf_grow _ _ _ (storeIf_grow _ _ _ (storeIf_grow _ _ _ (hf₀ (by simpa using hf))))
  refine ⟨⟨?_, ?_, ?_, ?_, ?_⟩, hgrow, hmapped⟩
  · have hrec := h.pc.enter hgrow hc hd (pcIndex_lt va) hmapped.pc
    rwa [he] at hrec ⊢
  · intro p
    rw [he]
    by_cases hp : p = (c.toNat, d.toNat)
    · exact .inr ⟨c.toNat, pcIndex va, hc, pcIndex_lt va, by simp [hp]⟩
    · simpa [Function.update_of_ne hp] using h.pr p
  · have hrec := h.pd.enter hgrow hc hd (pdIndex_lt _ va) hmapped.pd
    rwa [he] at hrec ⊢
  · have hrec := h.pt.enter hgrow hc hd (ptIndex_lt _ va) hmapped.pt
    rwa [he] at hrec ⊢
  · rw [he]
    refine storeIf_forall (storeIf_forall (storeIf_forall (storeIf_forall h.mem _ ?_) _ ?_) _ ?_)
      _ ?_ <;> intro _
    · exact .pc hc hd₂ (pcIndex_lt va)
    · exact .pr hc hd₁ hd (prIndex_lt _ va)
    · exact .pd hc hd (pdIndex_lt _ va)
    · exact .pt hc hd (ptIndex_lt _ va)

/-! ## all pages -/

/-- The pool indices that the pages of a pool of `n` reach, a byte each. -/
def indicesUsed (n : Nat) : Nat := min n 256

/-- The pages of one context. -/
theorem context_spec (ps : PageSize) (i n : Nat) (va : Nat → U64) (s : PageTables)
    (h : Inv ps (indicesUsed n) s) :
    let s' := each n (fun j =>
      genPageDesc (paPool ps) (va j) (BitVec.ofNat 8 i) (BitVec.ofNat 8 j) ps.val 1) s
    Inv ps (indicesUsed n) s' ∧ (∀ a, s.mem a ≠ none → s'.mem a ≠ none) ∧
      ∀ j < n, Mapped ps (indicesUsed n) s'.mem (i % 256) (j % 256) (va j) := by
  refine each_spec (fun l s' => Inv ps (indicesUsed n) s' ∧
    (∀ a, s.mem a ≠ none → s'.mem a ≠ none) ∧
    ∀ j < l, Mapped ps (indicesUsed n) s'.mem (i % 256) (j % 256) (va j)) ?_
    ⟨h, fun _ ha => ha, fun j hj => absurd hj (Nat.not_lt_zero j)⟩
  intro l s₁ hl ⟨hinv, hgrow, hrow⟩
  have hidx : (BitVec.ofNat 8 l).toNat < indicesUsed n := by
    simp only [BitVec.toNat_ofNat, indicesUsed]
    omega
  obtain ⟨hinv', hgrow', hmapped⟩ :=
    genPageDesc_spec hinv (Nat.min_le_right _ _) (BitVec.ofNat 8 i) (BitVec.ofNat 8 l) hidx (va l)
  refine ⟨hinv', fun a ha => hgrow' a (hgrow a ha), fun j hj => ?_⟩
  rcases Nat.lt_succ_iff_lt_or_eq.mp hj with hj | rfl
  · exact (hrow j hj).grow hgrow'
  · simpa only [BitVec.toNat_ofNat] using hmapped

/-- **The whole run**: the kinds of entries, and every page's own entries. -/
theorem setupPageDesc_spec (ps : PageSize) (nC n : Nat) (va : Nat → Nat → U64) (s : PageTables)
    (hs : s.mem = fun _ => none) :
    Inv ps (indicesUsed n) (setupPageDesc ps nC n va (paPool ps) s) ∧
      ∀ i < nC, ∀ j < n, Mapped ps (indicesUsed n) (setupPageDesc ps nC n va (paPool ps) s).mem
        (i % 256) (j % 256) (va i j) := by
  refine each_spec (fun k s => Inv ps (indicesUsed n) s ∧
    ∀ i < k, ∀ j < n, Mapped ps (indicesUsed n) s.mem (i % 256) (j % 256) (va i j)) ?_ ?_
  · intro k s _ ⟨hinv, hdone⟩
    obtain ⟨hinv', hgrow, hrow⟩ := context_spec ps k n (va k) s hinv
    refine ⟨hinv', fun i hi j hj => ?_⟩
    rcases Nat.lt_succ_iff_lt_or_eq.mp hi with hi | rfl
    · exact (hdone i hi j hj).grow hgrow
    · exact hrow j hj
  · exact ⟨⟨fun _ => .inl rfl, fun _ => .inl rfl, fun _ => .inl rfl, fun _ => .inl rfl,
      fun a e he => by simp [hs] at he⟩, fun i hi => absurd hi (Nat.not_lt_zero i)⟩

/-! ## what a walk finds -/

/-- What an entry of a level can be. -/
def IsEntry (ps : PageSize) (n c d : Nat) (e : U64) : TableLevel → Prop
  | .pc => ∃ d' < n, e = pcEntry ps c d'
  | .pr => ∃ d' < n, e = prEntry c d'
  | .pd => e = pdEntry ps c d
  | .pt => e = ptEntry ps d

/-- The entry at an address is one of the address's level. -/
theorem Written.of_site {l : TableLevel} (hn : n ≤ 256) (hc : c < 256) (hd : d < 256)
    (hi : i.toNat < 512) (h : Written ps n (site l c d i) e) : IsEntry ps n c d e l := by
  generalize ha : site l c d i = a at h
  cases h with
  | @pc c' d' i' hc' hd' hi' =>
      obtain ⟨rfl, rfl, -⟩ := site_inj hc hd hi hc' (by decide) hi' ha
      exact ⟨d', hd', rfl⟩
  | @pr c' _ d' i' hc' _ hd' hi' =>
      obtain ⟨rfl, rfl, -⟩ := site_inj hc hd hi hc' (by omega) hi' ha
      exact ⟨d', hd', rfl⟩
  | pd hc' hd' hi' =>
      obtain ⟨rfl, rfl, hdd, -⟩ := site_inj hc hd hi hc' (by omega) hi' ha
      obtain rfl := hdd.resolve_left (by decide)
      rfl
  | pt hc' hd' hi' =>
      obtain ⟨rfl, rfl, hdd, -⟩ := site_inj hc hd hi hc' (by omega) hi' ha
      obtain rfl := hdd.resolve_left (by decide)
      rfl

theorem Inv.mem_pc (h : Inv ps n s) (hn : n ≤ 256) (hc : c < 256) (hi : i.toNat < 512)
    (he : s.mem (site .pc c 0 i) = some e) : ∃ d < n, e = pcEntry ps c d :=
  (h.mem _ e he).of_site hn hc (by decide) hi

theorem Inv.mem_pr (h : Inv ps n s) (hn : n ≤ 256) (hc : c < 256) (hd : d < n) (hi : i.toNat < 512)
    (he : s.mem (site .pr c d i) = some e) : ∃ d' < n, e = prEntry c d' :=
  (h.mem _ e he).of_site hn hc (by omega) hi

theorem Inv.mem_pd (h : Inv ps n s) (hn : n ≤ 256) (hc : c < 256) (hd : d < n) (hi : i.toNat < 512)
    (he : s.mem (site .pd c d i) = some e) : e = pdEntry ps c d :=
  (h.mem _ e he).of_site hn hc (by omega) hi

theorem Inv.mem_pt (h : Inv ps n s) (hn : n ≤ 256) (hc : c < 256) (hd : d < n) (hi : i.toNat < 512)
    (he : s.mem (site .pt c d i) = some e) : e = ptEntry ps d :=
  (h.mem _ e he).of_site hn hc (by omega) hi

theorem toNat_paTempAddr_lt (ps : PageSize) (hd : d < 256) : (paTempAddr ps d).toNat < 2 ^ 36 := by
  have hstep : (poolStep ps.val.toNat).toNat ≤ 131072 := by cases ps <;> decide
  have hmul : d * (poolStep ps.val.toNat).toNat ≤ 256 * 131072 :=
    Nat.mul_le_mul (by omega) hstep
  rw [toNat_paTempAddr ps hd]
  omega

theorem toNat_frame_lt (l : TableLevel) (hc : c < 256) (hd : d < 256) :
    (BitVec.ofNat 64 (frame c d l)).toNat < 2 ^ 36 := by
  have hf := frame_lt l hc hd
  rw [BitVec.toNat_ofNat]
  omega

theorem mem_of_readValid (h : readValid mem a = some e) : mem a = some e :=
  (Option.filter_eq_some_iff.mp h).1

theorem pcEntry_small (hs : ps.val.toNat < 5) (hc : c < 256) (hd : d < 256) :
    entryFlag (pcEntry ps c d) = 0 ∧
      entryBase (pcEntry ps c d) = BitVec.ofNat 64 (frame c d .pr) := by
  rw [pcEntry, if_neg (by omega), pcDesc_context]
  refine ⟨BitVec.eq_of_toNat_eq ?_, entryBase_descWord (by decide) (toNat_frame_lt _ hc hd)⟩
  rw [entryFlag_descWord (by decide) (toNat_frame_lt _ hc hd)]
  rfl

theorem pcEntry_large (hs : ¬ ps.val.toNat < 5) (hc : c < 256) (hd : d < 256) :
    entryFlag (pcEntry ps c d) = 1 ∧
      entryBase (pcEntry ps c d) = BitVec.ofNat 64 (frame c d .pd) := by
  rw [pcEntry, if_pos (by omega), pcDesc_context]
  refine ⟨BitVec.eq_of_toNat_eq ?_, entryBase_descWord (by decide) (toNat_frame_lt _ hc hd)⟩
  rw [entryFlag_descWord (by decide) (toNat_frame_lt _ hc hd)]
  rfl

theorem pcEntry_valid (ps : PageSize) (hc : c < 256) (hd : d < 256) : pcEntry ps c d &&& 0x1 = 1 := by
  unfold pcEntry
  split <;> rw [pcDesc_context] <;>
    exact valid_descWord (by decide) (toNat_frame_lt _ hc hd) (by decide)

theorem prEntry_fields (hc : c < 256) (hd : d < 256) :
    entryBase (prEntry c d) = BitVec.ofNat 64 (frame c d .pd) ∧ prEntry c d &&& 0x1 = 1 := by
  rw [prEntry, prDesc_context]
  exact ⟨entryBase_descWord (by decide) (toNat_frame_lt _ hc hd),
    valid_descWord (by decide) (toNat_frame_lt _ hc hd) (by decide)⟩

theorem pdEntry_fields (ps : PageSize) (hc : c < 256) (hd : d < 256) :
    entryBase (pdEntry ps c d) = BitVec.ofNat 64 (frame c d .pt) ∧ pdEntry ps c d &&& 0x1 = 1 := by
  have hlow : (1 ||| ((ps.val.zeroExtend 64 &&& 0x7) <<< 9) : U64).toNat < 4096 ∧
      (1 ||| ((ps.val.zeroExtend 64 &&& 0x7) <<< 9) : U64).toNat % 2 = 1 := by cases ps <;> decide
  rw [pdEntry, pdDesc_context]
  exact ⟨entryBase_descWord hlow.1 (toNat_frame_lt _ hc hd),
    valid_descWord hlow.1 (toNat_frame_lt _ hc hd) hlow.2⟩

theorem ptEntry_fields (ps : PageSize) (hd : d < 256) :
    entryBase (ptEntry ps d) = paTempAddr ps d ∧ ptEntry ps d &&& 0x1 = 1 := by
  rw [ptEntry, ptDesc_context]
  exact ⟨entryBase_descWord (by decide) (toNat_paTempAddr_lt ps hd),
    valid_descWord (by decide) (toNat_paTempAddr_lt ps hd) (by decide)⟩

/-- The page directory a page catalogue entry leads to is one of the
context's own. -/
theorem Inv.walkRoot_pcEntry (h : Inv ps n s) (hn : n ≤ 256) (hc : c < 256) (hd : d < n)
    (hw : walkRoot s.mem ps.val.toNat va (pcEntry ps c d) = some b) :
    ∃ d' < n, b = BitVec.ofNat 64 (frame c d' .pd) := by
  unfold walkRoot at hw
  by_cases hs : ps.val.toNat < 5
  · obtain ⟨hflag, hbase⟩ := pcEntry_small hs hc (by omega : d < 256)
    rw [if_pos hflag, hbase] at hw
    obtain ⟨e, he, rfl⟩ := Option.map_eq_some_iff.mp hw
    obtain ⟨d', hd', rfl⟩ := h.mem_pr hn hc hd (prIndex_lt _ va) (mem_of_readValid he)
    exact ⟨d', hd', (prEntry_fields hc (by omega)).1⟩
  · obtain ⟨hflag, hbase⟩ := pcEntry_large hs hc (by omega : d < 256)
    rw [if_neg (by rw [hflag]; decide), Option.some.injEq] at hw
    exact ⟨d, hd, hw ▸ hbase⟩

/-- A walk that gets to its end goes from the context's catalogue entry to
one of its page directories and on to the data page of that pool index. -/
theorem Inv.walk_some (h : Inv ps n s) (hn : n ≤ 256) (hc : c < 256)
    (hw : walk s.mem ps.val.toNat (BitVec.ofNat 64 (frame c 0 .pc)) va = some p) :
    ∃ e d, d < n ∧ s.mem (site .pc c 0 (pcIndex va)) = some e ∧
      walkRoot s.mem ps.val.toNat va e = some (BitVec.ofNat 64 (frame c d .pd)) ∧
      p = paTempAddr ps d := by
  simp only [walk, Option.bind_eq_bind, Option.bind_eq_some_iff, Option.pure_def,
    Option.some.injEq] at hw
  obtain ⟨e, he, b, hb, pd, hpd, pt, hpt, rfl⟩ := hw
  have he' := mem_of_readValid he
  obtain ⟨d₁, hd₁, rfl⟩ := h.mem_pc hn hc (pcIndex_lt va) he'
  obtain ⟨d, hd, rfl⟩ := h.walkRoot_pcEntry hn hc hd₁ hb
  obtain rfl := h.mem_pd hn hc hd (pdIndex_lt _ va) (mem_of_readValid hpd)
  rw [(pdEntry_fields ps hc (by omega)).1] at hpt
  obtain rfl := h.mem_pt hn hc hd (ptIndex_lt _ va) (mem_of_readValid hpt)
  exact ⟨_, d, hd, he', hb, (ptEntry_fields ps (by omega)).1⟩

/-- **Two pages behind one page root entry** are translated alike. -/
theorem Inv.walk_unique (h : Inv ps n s) (hn : n ≤ 256) (hc : c < 256)
    (hpc : pcIndex va = pcIndex va') (hpr : prIndex ps.val.toNat va = prIndex ps.val.toNat va')
    (hw : walk s.mem ps.val.toNat (BitVec.ofNat 64 (frame c 0 .pc)) va = some p)
    (hw' : walk s.mem ps.val.toNat (BitVec.ofNat 64 (frame c 0 .pc)) va' = some p') : p = p' := by
  obtain ⟨e, d, hd, he, hb, rfl⟩ := h.walk_some hn hc hw
  obtain ⟨e', d', hd', he', hb', rfl⟩ := h.walk_some hn hc hw'
  rw [← hpc, he, Option.some.injEq] at he'
  subst he'
  have hroot : walkRoot s.mem ps.val.toNat va e = walkRoot s.mem ps.val.toNat va' e := by
    simp only [walkRoot, hpr]
  rw [hroot, hb', Option.some.injEq] at hb
  have hf := congrArg BitVec.toNat hb
  have hl := frame_lt .pd hc (by omega : d < 256)
  have hl' := frame_lt .pd hc (by omega : d' < 256)
  have hdd : d = d' := by
    simp only [BitVec.toNat_ofNat, frame] at hf hl hl'
    omega
  rw [hdd]

theorem readValid_eq (h : mem a = some e) (hv : e &&& 0x1 = 1) : readValid mem a = some e :=
  Option.filter_eq_some_iff.mpr ⟨h, beq_iff_eq.mpr hv⟩

/-- With one pool index in use, the entries of a page lead to its data page. -/
theorem Inv.walk_of_mapped (h : Inv ps 1 s) (hc : c < 256) (hm : Mapped ps 1 s.mem c 0 va) :
    walk s.mem ps.val.toNat (BitVec.ofNat 64 (frame c 0 .pc)) va = some (paTempAddr ps 0) := by
  have h256 : 1 ≤ 256 := by decide
  obtain ⟨e, he⟩ := Option.ne_none_iff_exists'.mp hm.pc
  obtain ⟨d, hd, rfl⟩ := h.mem_pc h256 hc (pcIndex_lt va) he
  obtain rfl := Nat.lt_one_iff.mp hd
  obtain ⟨pd, hpd⟩ := Option.ne_none_iff_exists'.mp hm.pd
  obtain rfl := h.mem_pd h256 hc hd (pdIndex_lt _ va) hpd
  obtain ⟨pt, hpt⟩ := Option.ne_none_iff_exists'.mp hm.pt
  obtain rfl := h.mem_pt h256 hc hd (ptIndex_lt _ va) hpt
  have hroot : walkRoot s.mem ps.val.toNat va (pcEntry ps c 0) =
      some (BitVec.ofNat 64 (frame c 0 .pd)) := by
    unfold walkRoot
    by_cases hs : ps.val.toNat < 5
    · obtain ⟨hflag, hbase⟩ := pcEntry_small hs hc (by decide : 0 < 256)
      obtain ⟨d', hd', hpr⟩ := hm.pr hs
      obtain rfl := Nat.lt_one_iff.mp hd'
      obtain ⟨pr, hpr⟩ := Option.ne_none_iff_exists'.mp hpr
      obtain ⟨d, hd, rfl⟩ := h.mem_pr h256 hc hd' (prIndex_lt _ va) hpr
      obtain rfl := Nat.lt_one_iff.mp hd
      obtain ⟨hb, hv⟩ := prEntry_fields hc (by decide : 0 < 256)
      have hread := readValid_eq hpr hv
      rw [site] at hread
      rw [if_pos hflag, hbase, hread, Option.map_some, hb]
    · obtain ⟨hflag, hbase⟩ := pcEntry_large hs hc (by decide : 0 < 256)
      rw [if_neg (by rw [hflag]; decide), hbase]
  obtain ⟨hbd, hvd⟩ := pdEntry_fields ps hc (by decide : 0 < 256)
  obtain ⟨hbt, hvt⟩ := ptEntry_fields ps (by decide : 0 < 256)
  simp only [walk, Option.bind_eq_bind, Option.bind_eq_some_iff, Option.pure_def]
  refine ⟨_, readValid_eq he (pcEntry_valid ps hc (by decide)), _, hroot, _, readValid_eq hpd hvd, _,
    ?_, congrArg some hbt⟩
  rw [hbd]
  exact readValid_eq hpt hvt

/-! ## the tables as a whole -/

/-- The page catalogue of context `i`, for as many contexts as there are. -/
def pcRoot (i : Nat) : U64 := (mmuPcBaseAddr >>> 12) + BitVec.ofNat 64 i

/-- The page catalogue that `gen_page_desc` and `pcie_mmu_cfg_init` take for
context `i`, the context number passed as a byte. -/
def ctxtRoot (i : Nat) : U64 := (mmuPcBaseAddr >>> 12) + (BitVec.ofNat 8 i).zeroExtend 64

/-- Every page of every context is translated as planned, by walks from the
given page catalogues. -/
def Translates (root : Nat → U64) (ps : PageSize) (nC n : Nat) (junk : Nat → Nat → U64)
    (old : AssTable × AssTable × AssTable × AssTable) : Prop :=
  ∀ i < nC, ∀ j < n,
    walk (mmuInitPagetable ps nC n junk old) ps.val.toNat (root i) (vaPool junk i j) =
      some (paPool ps i (4 * j + 3))

variable (ps : PageSize) (nC n : Nat) (junk : Nat → Nat → U64)
  (old : AssTable × AssTable × AssTable × AssTable)

theorem ctxtRoot_eq (i : Nat) : ctxtRoot i = BitVec.ofNat 64 (frame (i % 256) 0 .pc) := by
  rw [ctxtRoot, pcBase_eq, BitVec.toNat_ofNat]

theorem pcRoot_eq (hi : i < 256) : pcRoot i = ctxtRoot i := by
  rw [ctxtRoot_eq, Nat.mod_eq_of_lt hi, frame, BitVec.ofNat_add]
  rfl

/-- One page for each context is translated, however many contexts share a
page catalogue. -/
theorem translates_single (hn : n ≤ 1) : Translates ctxtRoot ps nC n junk old := by
  intro i hi j hj
  obtain rfl : j = 0 := by omega
  obtain rfl : n = 1 := by omega
  obtain ⟨hinv, hmapped⟩ := setupPageDesc_spec ps nC 1 (vaPool junk)
    ⟨old.1, old.2.1, old.2.2.1, old.2.2.2, fun _ => none⟩ rfl
  rw [ctxtRoot_eq]
  exact hinv.walk_of_mapped (Nat.mod_lt i (by decide)) (hmapped i hi 0 hj)

/-- The second page of the pool shares the page root entry of the first. -/
theorem poolStep_index (k : Nat) (n : Nat) : pcIndex (0 + poolStep k) = pcIndex 0 ∧
    prIndex n (0 + poolStep k) = prIndex n 0 := by
  unfold poolStep prIndex
  split <;> split <;> decide

/-- A second page in the pool spoils the first or is not translated itself. -/
theorem not_translates (hC : nC ≠ 0) (hn : 2 ≤ n) : ¬ Translates ctxtRoot ps nC n junk old := by
  intro h
  obtain ⟨hinv, -⟩ := setupPageDesc_spec ps nC n (vaPool junk)
    ⟨old.1, old.2.1, old.2.2.1, old.2.2.2, fun _ => none⟩ rfl
  have h0 := h 0 (by omega) 0 (by omega)
  have h1 := h 0 (by omega) 1 (by omega)
  rw [ctxtRoot_eq] at h0 h1
  obtain ⟨hpc, hpr⟩ := poolStep_index (junk 0 0).toNat ps.val.toNat
  have hpage := hinv.walk_unique (Nat.min_le_right _ _) (by decide) hpc hpr h1 h0
  exact paTempAddr_zero_ne_one ps hpage.symm

/-- Nothing is written for the page catalogue of context 256. -/
theorem walk_pcRoot_256 (hinv : Inv ps m s) (hm : m ≤ 256) (va : U64) :
    walk s.mem ps.val.toNat (pcRoot 256) va = none := by
  have hnone : s.mem (entryAddr (pcRoot 256) (pcIndex va)) = none := by
    by_contra hne
    obtain ⟨e, he⟩ := Option.ne_none_iff_exists'.mp hne
    have hi := pcIndex_lt va
    have haddr : (entryAddr (pcRoot 256) (pcIndex va)).toNat =
        0x800100 * 4096 + (pcIndex va).toNat * 8 := by
      have hroot : (pcRoot 256).toNat = 0x800100 := rfl
      rw [entryAddr_eq, BitVec.toNat_add, BitVec.toNat_shiftLeft, BitVec.toNat_shiftLeft, hroot,
        Nat.shiftLeft_eq, Nat.shiftLeft_eq]
      omega
    generalize entryAddr (pcRoot 256) (pcIndex va) = a at he haddr
    cases hinv.mem a e he with
    | pc hc _ hi' => rw [toNat_site _ hc (by decide) hi', frame] at haddr; omega
    | pr hc hd _ hi' => rw [toNat_site _ hc (by omega) hi', frame] at haddr; omega
    | pd hc hd hi' => rw [toNat_site _ hc (by omega) hi', frame] at haddr; omega
    | pt hc hd hi' => rw [toNat_site _ hc (by omega) hi', frame] at haddr; omega
  simp [walk, readValid, hnone]

/-- **The tables translate as planned exactly when no context has a second
page** and, if every context is to have a page catalogue of its own, the
context numbers fit a byte. -/
theorem translates_iff :
    (Translates ctxtRoot ps nC n junk old ↔ nC = 0 ∨ n ≤ 1) ∧
      (Translates pcRoot ps nC n junk old ↔ nC = 0 ∨ n = 0 ∨ n = 1 ∧ nC ≤ 256) := by
  have hiff : Translates ctxtRoot ps nC n junk old ↔ nC = 0 ∨ n ≤ 1 := by
    refine ⟨fun h => ?_, ?_⟩
    · by_contra hno
      exact not_translates ps nC n junk old (by omega) (by omega) h
    · rintro (rfl | hn)
      · exact fun i hi => absurd hi (Nat.not_lt_zero i)
      · exact translates_single ps nC n junk old hn
  refine ⟨hiff, fun h => ?_, ?_⟩
  · rcases Nat.lt_or_ge 256 nC with hC | hC
    · rcases Nat.eq_zero_or_pos n with rfl | hn
      · exact .inr (.inl rfl)
      · -- context 256 has no page catalogue
        obtain ⟨hinv, -⟩ := setupPageDesc_spec ps nC n (vaPool junk)
          ⟨old.1, old.2.1, old.2.2.1, old.2.2.2, fun _ => none⟩ rfl
        have hw := h 256 hC 0 hn
        rw [mmuInitPagetable, walk_pcRoot_256 ps hinv (Nat.min_le_right _ _)] at hw
        contradiction
    · have h' : Translates ctxtRoot ps nC n junk old := fun i hi j hj => by
        rw [← pcRoot_eq (by omega)]
        exact h i hi j hj
      rcases hiff.mp h' with rfl | hn
      · exact .inl rfl
      · omega
  · rintro (rfl | rfl | ⟨hn, hC⟩)
    · exact fun i hi => absurd hi (Nat.not_lt_zero i)
    · exact fun i _ j hj => absurd hj (Nat.not_lt_zero j)
    · intro i hi j hj
      rw [pcRoot_eq (by omega)]
      exact hiff.mpr (.inr (by omega)) i hi j hj

/-- The records of a module just loaded. -/
def clearRecords : AssTable × AssTable × AssTable × AssTable :=
  let t : AssTable := ⟨fun _ => 0, fun _ => 0⟩
  (t, t, t, t)

/-- The tables of the header as it stands, 4 KiB pages and a pool of 0x4000 of
them for one context, do not translate the pool. -/
theorem configured_not_translates :
    ¬ Translates pcRoot .k4 1 0x4000 (fun _ _ => 0) clearRecords := by
  intro h
  refine not_translates .k4 1 0x4000 (fun _ _ => 0) clearRecords (by decide) (by decide) ?_
  intro i hi j hj
  rw [← pcRoot_eq (by omega)]
  exact h i hi j hj

end MtEmu
